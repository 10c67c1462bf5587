import Secretbae.Lib.Runs
import Secretbae.Lib.SortBy
import Secretbae.Proto.Text
import Secretbae.Service.Routes

/-!
# The state of the metadata browser

`App` of the top interface, with every function that changes it.  The table is
derived data: the functions that change what it depends on compute it again,
except that `cycle_tag` returns before that where no secret has a tag.  And
`clear_filter` forgets the filter that cancelling would restore.
-/

namespace Secretbae
namespace Cli

open Lib Proto Service

/-- `str::to_lowercase`, which is Unicode's; it makes nothing of nothing. -/
structure Lowercase where
  apply : String → String
  nil : apply "" = ""

/-- The bytes of a text as numbers, in whose order `str::cmp` compares. -/
def textKey (s : String) : List Nat :=
  (utf8 s).map UInt8.toNat

inductive SortColumn where
  | path
  | versions
  | current
  | tags
  | updated
deriving DecidableEq

def SortColumn.next : SortColumn → SortColumn
  | .path => .versions
  | .versions => .current
  | .current => .tags
  | .tags => .updated
  | .updated => .path

inductive SortDirection where
  | ascending
  | descending
deriving DecidableEq

def SortDirection.reverse : SortDirection → SortDirection
  | .ascending => .descending
  | .descending => .ascending

structure SortCriteria where
  column : SortColumn
  direction : SortDirection
deriving DecidableEq

def SortCriteria.cycleColumn (c : SortCriteria) : SortCriteria :=
  ⟨c.column.next, .ascending⟩

def SortCriteria.toggleDirection (c : SortCriteria) : SortCriteria :=
  ⟨c.column, c.direction.reverse⟩

inductive AppMode where
  | list
  | detail
  | filtering
deriving DecidableEq

structure StatusMessage where
  text : String
  isError : Bool
deriving DecidableEq

structure App where
  allSecrets : List SecretSummaryDto
  filteredSecrets : List SecretSummaryDto
  selectedIndex : Nat
  selectedVersionIndex : Nat
  pathFilter : String
  filterInput : String
  savedFilter : String
  selectedTag : Option Tag
  sortCriteria : SortCriteria
  mode : AppMode
  paused : Bool
  statusMessage : Option StatusMessage
  socketPath : String
  lastRefreshTime : Option String
  versionsDetail : Option (SecretPath × List VersionInfoDto)
  versionsLoading : Bool

/-- `App::new`. -/
def App.new (socketPath : String) : App where
  allSecrets := []
  filteredSecrets := []
  selectedIndex := 0
  selectedVersionIndex := 0
  pathFilter := ""
  filterInput := ""
  savedFilter := ""
  selectedTag := none
  sortCriteria := ⟨.path, .ascending⟩
  mode := .list
  paused := false
  statusMessage := none
  socketPath := socketPath
  lastRefreshTime := none
  versionsDetail := none
  versionsLoading := false

/-- `Option<Version>` in its order: `None` first, and version numbers start at 1. -/
def currentKey (s : SecretSummaryDto) : Nat :=
  s.currentVersion.elim 0 fun v => v.toNat

def pathKey (s : SecretSummaryDto) : List Nat :=
  textKey s.path.asStr

/-- The tags as the column shows them. -/
def joinedTags (s : SecretSummaryDto) : String :=
  ",".intercalate (s.tags.map Tag.toText)

/-- The comparison of `sort_by`, before the direction. -/
def SortColumn.ordering (column : SortColumn) (a b : SecretSummaryDto) : Ordering :=
  match column with
  | .path => cmpKey (pathKey a) (pathKey b)
  | .versions => (cmpKey a.versionCount b.versionCount).then (cmpKey (pathKey a) (pathKey b))
  | .current => (cmpKey (currentKey a) (currentKey b)).then (cmpKey (pathKey a) (pathKey b))
  | .tags =>
      (cmpKey (textKey (joinedTags a)) (textKey (joinedTags b))).then
        (cmpKey (pathKey a) (pathKey b))
  | .updated =>
      (cmpKey (textKey a.updatedAt) (textKey b.updatedAt)).then (cmpKey (pathKey a) (pathKey b))

/-- The comparison of `sort_by`. -/
def SortCriteria.ordering (criteria : SortCriteria) (a b : SecretSummaryDto) : Ordering :=
  match criteria.direction with
  | .ascending => criteria.column.ordering a b
  | .descending => (criteria.column.ordering a b).swap

section Operations

variable (lower : Lowercase)

/-- The closure of `filter`. -/
def App.keeps (app : App) (secret : SecretSummaryDto) : Bool :=
  (app.pathFilter = "" ||
    decide ((lower.apply app.pathFilter).toList <:+: (lower.apply secret.path.asStr).toList)) &&
  app.selectedTag.elim true fun tag => decide (tag ∈ secret.tags)

/-- `recompute_filtered_and_sorted`. -/
def App.recompute (app : App) : App :=
  let list := sortBy app.sortCriteria.ordering (app.allSecrets.filter (app.keeps lower))
  { app with
    filteredSecrets := list
    selectedIndex :=
      if list = [] then 0
      else if list.length ≤ app.selectedIndex then list.length - 1
      else app.selectedIndex }

/-- The order of the keys of a `BTreeSet<Tag>`. -/
def tagOrdering (a b : Tag) : Ordering :=
  (cmpKey (textKey a.key) (textKey b.key)).then (cmpKey (textKey a.value) (textKey b.value))

/-- `distinct_tags`. -/
def App.distinctTags (app : App) : List Tag :=
  sortBy tagOrdering (app.allSecrets.flatMap SecretSummaryDto.tags).dedup

def App.setSecrets (secrets : List SecretSummaryDto) (app : App) : App :=
  { app with allSecrets := secrets }.recompute lower

def App.setStatusError (error : String) (app : App) : App :=
  { app with statusMessage := some ⟨error, true⟩ }

def App.setStatusInfo (info : String) (app : App) : App :=
  { app with statusMessage := some ⟨info, false⟩ }

def App.clearStatus (app : App) : App :=
  { app with statusMessage := none }

def App.selectNext (app : App) : App :=
  if app.filteredSecrets = [] then { app with selectedIndex := 0 }
  else if app.selectedIndex + 1 < app.filteredSecrets.length then
    { app with selectedIndex := app.selectedIndex + 1 }
  else app

def App.selectPrev (app : App) : App :=
  if app.filteredSecrets = [] then { app with selectedIndex := 0 }
  else if 0 < app.selectedIndex then { app with selectedIndex := app.selectedIndex - 1 }
  else app

def App.selectFirst (app : App) : App :=
  { app with selectedIndex := 0 }

def App.selectLast (app : App) : App :=
  if app.filteredSecrets = [] then { app with selectedIndex := 0 }
  else { app with selectedIndex := app.filteredSecrets.length - 1 }

/-- The sum is one of `usize`. -/
def App.selectPageDown (pageSize : Nat) (app : App) : App :=
  if app.filteredSecrets = [] then { app with selectedIndex := 0 }
  else
    { app with
      selectedIndex :=
        min ((app.selectedIndex + pageSize) % 2 ^ 64) (app.filteredSecrets.length - 1) }

def App.selectPageUp (pageSize : Nat) (app : App) : App :=
  { app with selectedIndex := app.selectedIndex - pageSize }

def App.selectVersionNext (app : App) : App :=
  match app.versionsDetail with
  | some (_, versions) =>
      if versions ≠ [] ∧ app.selectedVersionIndex + 1 < versions.length then
        { app with selectedVersionIndex := app.selectedVersionIndex + 1 }
      else app
  | none => app

def App.selectVersionPrev (app : App) : App :=
  if 0 < app.selectedVersionIndex then
    { app with selectedVersionIndex := app.selectedVersionIndex - 1 }
  else app

def App.startFiltering (app : App) : App :=
  { app with
    mode := .filtering
    savedFilter := app.pathFilter
    filterInput := app.pathFilter }

def App.inputFilterChar (c : Char) (app : App) : App :=
  { app with
    filterInput := app.filterInput.push c
    pathFilter := app.filterInput.push c }.recompute lower

/-- `String::pop`. -/
def popChar (s : String) : String :=
  String.ofList s.toList.dropLast

def App.inputFilterBackspace (app : App) : App :=
  { app with
    filterInput := popChar app.filterInput
    pathFilter := popChar app.filterInput }.recompute lower

def App.applyFilterInput (app : App) : App :=
  { app with
    pathFilter := app.filterInput
    savedFilter := ""
    mode := .list }.recompute lower

def App.cancelFilterInput (app : App) : App :=
  { app with
    pathFilter := app.savedFilter
    savedFilter := ""
    filterInput := ""
    mode := .list }.recompute lower

def App.applyFilter (filter : String) (app : App) : App :=
  { app with pathFilter := filter }.recompute lower

def App.clearFilter (app : App) : App :=
  { app with
    pathFilter := ""
    filterInput := ""
    savedFilter := "" }.recompute lower

/-- The tag that `cycle_tag` selects after the one that is selected. -/
def nextTag (distinct : List Tag) : Option Tag → Option Tag
  | none => distinct.head?
  | some current =>
      if current ∈ distinct then distinct[distinct.idxOf current + 1]?
      else none

def App.cycleTag (app : App) : App :=
  if app.distinctTags = [] then { app with selectedTag := none }
  else { app with selectedTag := nextTag app.distinctTags app.selectedTag }.recompute lower

def App.cycleSort (app : App) : App :=
  { app with sortCriteria := app.sortCriteria.cycleColumn }.recompute lower

def App.reverseSort (app : App) : App :=
  { app with sortCriteria := app.sortCriteria.toggleDirection }.recompute lower

def App.togglePause (app : App) : App :=
  { app with paused := !app.paused }

def App.openDetail (app : App) : App :=
  { app with mode := .detail, selectedVersionIndex := 0 }

def App.closeDetail (app : App) : App :=
  { app with mode := .list, versionsDetail := none }

def App.setVersions (path : SecretPath) (versions : List VersionInfoDto) (app : App) : App :=
  { app with
    versionsDetail := some (path, versions)
    versionsLoading := false
    selectedVersionIndex := 0 }

def App.setVersionsLoading (loading : Bool) (app : App) : App :=
  { app with versionsLoading := loading }

def App.setLastRefreshTime (time : String) (app : App) : App :=
  { app with lastRefreshTime := some time }

def App.selectedSecret (app : App) : Option SecretSummaryDto :=
  app.filteredSecrets[app.selectedIndex]?

end Operations

/-- The functions of `App` that change it. -/
inductive AppOp where
  | setSecrets (secrets : List SecretSummaryDto)
  | setStatusError (error : String)
  | setStatusInfo (info : String)
  | clearStatus
  | selectNext
  | selectPrev
  | selectFirst
  | selectLast
  | selectPageDown (pageSize : Nat)
  | selectPageUp (pageSize : Nat)
  | selectVersionNext
  | selectVersionPrev
  | startFiltering
  | inputFilterChar (c : Char)
  | inputFilterBackspace
  | applyFilterInput
  | cancelFilterInput
  | applyFilter (filter : String)
  | clearFilter
  | cycleTag
  | cycleSort
  | reverseSort
  | togglePause
  | openDetail
  | closeDetail
  | setVersions (path : SecretPath) (versions : List VersionInfoDto)
  | setVersionsLoading (loading : Bool)
  | setLastRefreshTime (time : String)

def AppOp.apply (lower : Lowercase) (app : App) : AppOp → App
  | .setSecrets secrets => app.setSecrets lower secrets
  | .setStatusError error => app.setStatusError error
  | .setStatusInfo info => app.setStatusInfo info
  | .clearStatus => app.clearStatus
  | .selectNext => app.selectNext
  | .selectPrev => app.selectPrev
  | .selectFirst => app.selectFirst
  | .selectLast => app.selectLast
  | .selectPageDown pageSize => app.selectPageDown pageSize
  | .selectPageUp pageSize => app.selectPageUp pageSize
  | .selectVersionNext => app.selectVersionNext
  | .selectVersionPrev => app.selectVersionPrev
  | .startFiltering => app.startFiltering
  | .inputFilterChar c => app.inputFilterChar lower c
  | .inputFilterBackspace => app.inputFilterBackspace lower
  | .applyFilterInput => app.applyFilterInput lower
  | .cancelFilterInput => app.cancelFilterInput lower
  | .applyFilter filter => app.applyFilter lower filter
  | .clearFilter => app.clearFilter lower
  | .cycleTag => app.cycleTag lower
  | .cycleSort => app.cycleSort lower
  | .reverseSort => app.reverseSort lower
  | .togglePause => app.togglePause
  | .openDetail => app.openDetail
  | .closeDetail => app.closeDetail
  | .setVersions path versions => app.setVersions path versions
  | .setVersionsLoading loading => app.setVersionsLoading loading
  | .setLastRefreshTime time => app.setLastRefreshTime time

section Meaning

/-- Not after the other in a column, with ties broken by the path. -/
def SortColumn.Precedes (column : SortColumn) : SecretSummaryDto → SecretSummaryDto → Prop :=
  match column with
  | .path => ByKeys pathKey pathKey
  | .versions => ByKeys SecretSummaryDto.versionCount pathKey
  | .current => ByKeys currentKey pathKey
  | .tags => ByKeys (fun s => textKey (joinedTags s)) pathKey
  | .updated => ByKeys (fun s => textKey s.updatedAt) pathKey

/-- The order that the controls ask for. -/
def SortCriteria.Precedes (criteria : SortCriteria) (a b : SecretSummaryDto) : Prop :=
  match criteria.direction with
  | .ascending => criteria.column.Precedes a b
  | .descending => criteria.column.Precedes b a

theorem SortColumn.Precedes.trans
    {column : SortColumn} {a b c : SecretSummaryDto}
    (hab : column.Precedes a b)
    (hbc : column.Precedes b c) :
    column.Precedes a c := by
  unfold SortColumn.Precedes at *
  cases column <;> exact hab.trans hbc

theorem SortColumn.Precedes.total
    (column : SortColumn) (a b : SecretSummaryDto) :
    column.Precedes a b ∨ column.Precedes b a := by
  unfold SortColumn.Precedes
  cases column <;> exact ByKeys.total _ _

theorem SortCriteria.ordering_isLE
    (criteria : SortCriteria) (a b : SecretSummaryDto) :
    (criteria.ordering a b).isLE ↔ criteria.Precedes a b := by
  obtain ⟨column, direction⟩ := criteria
  unfold SortCriteria.ordering SortCriteria.Precedes SortColumn.ordering SortColumn.Precedes
  cases direction with
  | ascending =>
      cases column with
      | path =>
          dsimp only
          rw [← cmpKey_then_self, cmpKey_then_isLE (f := pathKey) (g := pathKey)]
      | versions => exact cmpKey_then_isLE a b
      | current => exact cmpKey_then_isLE a b
      | tags => exact cmpKey_then_isLE (f := fun s => textKey (joinedTags s)) (g := pathKey) a b
      | updated => exact cmpKey_then_isLE (f := fun s => textKey s.updatedAt) (g := pathKey) a b
  | descending =>
      cases column with
      | path =>
          dsimp only
          rw [← cmpKey_then_self, cmpKey_then_swap_isLE (f := pathKey) (g := pathKey)]
      | versions => exact cmpKey_then_swap_isLE a b
      | current => exact cmpKey_then_swap_isLE a b
      | tags =>
          exact cmpKey_then_swap_isLE (f := fun s => textKey (joinedTags s)) (g := pathKey) a b
      | updated =>
          exact cmpKey_then_swap_isLE (f := fun s => textKey s.updatedAt) (g := pathKey) a b

/-- A table in the order that the controls ask for. -/
theorem pairwise_sortBy_ordering
    (criteria : SortCriteria) (secrets : List SecretSummaryDto) :
    (sortBy criteria.ordering secrets).Pairwise criteria.Precedes := by
  refine pairwise_sortBy criteria.ordering_isLE ?_ ?_ secrets
  · intro a b c hab hbc
    unfold SortCriteria.Precedes at *
    cases hdirection : criteria.direction with
    | ascending =>
        rw [hdirection] at hab hbc
        exact hab.trans hbc
    | descending =>
        rw [hdirection] at hab hbc
        exact hbc.trans hab
  · intro a b
    unfold SortCriteria.Precedes
    cases criteria.direction with
    | ascending => exact SortColumn.Precedes.total _ a b
    | descending => exact SortColumn.Precedes.total _ b a

end Meaning

end Cli
end Secretbae
