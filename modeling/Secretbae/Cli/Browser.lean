import Secretbae.Cli.Controls

/-!
# The loop of the metadata browser

`run_interactive`: keys that `handle_key_input` dispatches on the mode, and
refreshes in between.  In the detail mode every refresh fetches versions again,
of the secret that the selection is on by then; no key moves the selection
there, but a new list may put another secret under it.

`pane_shows_opened_secret` says for every sequence of keys and refreshes when
the versions on display are those of the secret that was opened.
-/

namespace Secretbae
namespace Cli

open Lib Proto Service

/-- `KeyCode`; the codes that nothing is bound to are `other`. -/
inductive KeyCode where
  | enter
  | esc
  | backspace
  | char (c : Char)
  | up
  | down
  | pageUp
  | pageDown
  | home
  | endKey
  | other
deriving DecidableEq

/-- A key that is pressed, and whether Control is held. -/
structure KeyEvent where
  code : KeyCode
  control : Bool

/-- What the daemon answers, and the clock shows, while an event is handled. -/
structure Answers where
  secrets : Except String (List SecretSummaryDto)
  versions : SecretPath → Except String (List VersionInfoDto)
  time : String

/-- `fetch_secrets`. -/
def fetchSecrets (lower : Lowercase) (ans : Answers) (app : App) : App :=
  match ans.secrets with
  | .ok secrets => ((app.setSecrets lower secrets).clearStatus).setLastRefreshTime ans.time
  | .error e => app.setStatusError e

/-- `fetch_versions`. -/
def fetchVersions (ans : Answers) (app : App) : App :=
  match app.selectedSecret with
  | none => app
  | some secret =>
      match ans.versions secret.path with
      | .ok versions => (app.setVersionsLoading true).setVersions secret.path versions
      | .error e =>
          ((app.setVersionsLoading true).setStatusError
            ("failed to fetch versions: " ++ e)).setVersionsLoading false

/-- `handle_key_input`, in the filtering mode. -/
def filteringKey (lower : Lowercase) (app : App) : KeyCode → App
  | .enter => app.applyFilterInput lower
  | .esc => app.cancelFilterInput lower
  | .backspace => app.inputFilterBackspace lower
  | .char c => app.inputFilterChar lower c
  | _ => app

/-- In the detail mode. -/
def detailKey (lower : Lowercase) (ans : Answers) (app : App) : KeyCode → App
  | .esc | .char 'h' => app.closeDetail
  | .up | .char 'k' => app.selectVersionPrev
  | .down | .char 'j' => app.selectVersionNext
  | .char 'r' => fetchVersions ans (fetchSecrets lower ans app)
  | _ => app

/-- In the list. -/
def listKey (lower : Lowercase) (ans : Answers) (app : App) : KeyCode → App
  | .up | .char 'k' => app.selectPrev
  | .down | .char 'j' => app.selectNext
  | .pageUp => app.selectPageUp 10
  | .pageDown => app.selectPageDown 10
  | .home => app.selectFirst
  | .endKey => app.selectLast
  | .enter | .char 'l' => fetchVersions ans app.openDetail
  | .char '/' => app.startFiltering
  | .char 't' => app.cycleTag lower
  | .char 's' => app.cycleSort lower
  | .char 'S' => app.reverseSort lower
  | .char 'r' => fetchSecrets lower ans app
  | .char 'p' => app.togglePause
  | _ => app

/-- Control and `c`, or `q` where it is not typed into the filter. -/
def quits (app : App) (key : KeyEvent) : Bool :=
  decide (key.code = .char 'c') && key.control ||
    decide (key.code = .char 'q') && decide (app.mode ≠ .filtering)

/-- `handle_key_input`, of a key that does not quit. -/
def handleKeyInput (lower : Lowercase) (ans : Answers) (app : App) (code : KeyCode) : App :=
  match app.mode with
  | .filtering => filteringKey lower app code
  | .detail => detailKey lower ans app code
  | .list => listKey lower ans app code

/-- The periodic refresh, once its time has come. -/
def refresh (lower : Lowercase) (ans : Answers) (app : App) : App :=
  if app.paused then app
  else
    let app := fetchSecrets lower ans app
    if app.mode = .detail then fetchVersions ans app else app

inductive BrowserEvent where
  | key (key : KeyEvent) (ans : Answers)
  | refresh (ans : Answers)

/-- The browser, the secret that Detail was opened on, and whether it has been quit. -/
structure Browser where
  app : App
  opened : Option SecretPath
  quit : Bool

/-- `run_top`, up to its loop. -/
def Browser.start (lower : Lowercase) (socketPath : String) (ans : Answers) : Browser :=
  ⟨fetchSecrets lower ans (App.new socketPath), none, false⟩

/-- Detail is opened on the selected secret, and closed. -/
def openedAfter (b : Browser) (code : KeyCode) : Option SecretPath :=
  match b.app.mode with
  | .list =>
      if code = .enter ∨ code = .char 'l' then b.app.selectedSecret.map SecretSummaryDto.path
      else b.opened
  | .detail => if code = .esc ∨ code = .char 'h' then none else b.opened
  | .filtering => b.opened

def Browser.step (lower : Lowercase) (b : Browser) (event : BrowserEvent) : Browser :=
  if b.quit then b
  else
    match event with
    | .key key ans =>
        if quits b.app key then { b with quit := true }
        else
          { b with
            app := handleKeyInput lower ans b.app key.code
            opened := openedAfter b key.code }
    | .refresh ans => { b with app := refresh lower ans b.app }

/-- The versions on display, if any, are those of the secret that was opened. -/
def Browser.Shows (b : Browser) : Prop :=
  ∀ p, b.opened = some p → ∀ q versions, b.app.versionsDetail = some (q, versions) → q = p

/-- The row that the selection is on, once the table has been computed from `secrets`. -/
def rowAfter (lower : Lowercase) (app : App) (secrets : List SecretSummaryDto) :
    Option SecretSummaryDto :=
  let rows := sortBy app.sortCriteria.ordering (secrets.filter (app.keeps lower))
  rows[min app.selectedIndex (rows.length - 1)]?

/-- The row whose versions are fetched next: of the new list, or of the old one where it fails. -/
def nextRow (lower : Lowercase) (ans : Answers) (app : App) : Option SecretSummaryDto :=
  match ans.secrets with
  | .ok secrets => rowAfter lower app secrets
  | .error _ => app.selectedSecret

/-- The event fetches versions while Detail is open. -/
def BrowserEvent.refetches (b : Browser) : BrowserEvent → Option Answers
  | .refresh ans =>
      if b.quit = false ∧ b.app.paused = false ∧ b.app.mode = .detail then some ans else none
  | .key pressed ans =>
      if b.quit = false ∧ b.app.mode = .detail ∧ pressed.code = .char 'r' then some ans else none

/-- Where versions are fetched again and come back, the selection is on the opened secret. -/
def Browser.Steady (lower : Lowercase) (b : Browser) (event : BrowserEvent) : Prop :=
  ∀ ans, event.refetches b = some ans → ∀ p, b.opened = some p →
    ∀ row, nextRow lower ans b.app = some row → (ans.versions row.path).isOk = true →
      row.path = p

/-- Outside Detail nothing is open and nothing on display. -/
def Browser.Inv (b : Browser) : Prop :=
  b.app.mode ≠ .detail → b.opened = none ∧ b.app.versionsDetail = none

section Runs

variable {lower : Lowercase}

theorem selectedSecret_setSecrets
    (app : App) (secrets : List SecretSummaryDto) :
    (app.setSecrets lower secrets).selectedSecret = rowAfter lower app secrets := by
  unfold rowAfter
  generalize hrows : sortBy app.sortCriteria.ordering (secrets.filter (app.keeps lower)) = rows
  have htable : (app.setSecrets lower secrets).filteredSecrets = rows := hrows
  have hindex : (app.setSecrets lower secrets).selectedIndex =
      if rows = [] then 0
      else if rows.length ≤ app.selectedIndex then rows.length - 1 else app.selectedIndex := by
    rw [← hrows]
    rfl
  rw [App.selectedSecret, htable, hindex]
  by_cases hempty : rows = []
  · simp [hempty]
  · have hpos := List.length_pos_iff.mpr hempty
    rw [if_neg hempty]
    congr 1
    split <;> omega

theorem selectedSecret_fetchSecrets
    (ans : Answers) (app : App) :
    (fetchSecrets lower ans app).selectedSecret = nextRow lower ans app := by
  unfold fetchSecrets nextRow
  cases ans.secrets with
  | ok secrets => exact selectedSecret_setSecrets app secrets
  | error e => rfl

/-- Fetching secrets changes neither the mode nor what is on display. -/
theorem fetchSecrets_frame
    (lower : Lowercase) (ans : Answers) (app : App) :
    (fetchSecrets lower ans app).mode = app.mode ∧
      (fetchSecrets lower ans app).versionsDetail = app.versionsDetail := by
  unfold fetchSecrets
  cases ans.secrets <;> exact ⟨rfl, rfl⟩

/-- What is on display after fetching versions. -/
theorem fetchVersions_frame
    (ans : Answers) (app : App) :
    (fetchVersions ans app).mode = app.mode ∧
      ((fetchVersions ans app).versionsDetail = app.versionsDetail ∧
          (∀ row, app.selectedSecret = some row → (ans.versions row.path).isOk = false) ∨
        ∃ row versions, app.selectedSecret = some row ∧ ans.versions row.path = .ok versions ∧
          (fetchVersions ans app).versionsDetail = some (row.path, versions)) := by
  unfold fetchVersions
  cases hrow : app.selectedSecret with
  | none => exact ⟨rfl, .inl ⟨rfl, nofun⟩⟩
  | some row =>
      dsimp only
      cases hversions : ans.versions row.path with
      | ok versions => exact ⟨rfl, .inr ⟨row, versions, rfl, hversions, rfl⟩⟩
      | error e =>
          refine ⟨rfl, .inl ⟨rfl, ?_⟩⟩
          rintro _ ⟨⟩
          rw [hversions]
          rfl

/-- Neither branch of a function of `App` changes what is on display. -/
theorem versionsDetail_ite
    {c : Prop} [Decidable c] {app moved rest : App}
    (hmoved : moved.versionsDetail = app.versionsDetail)
    (hrest : rest.versionsDetail = app.versionsDetail) :
    (if c then moved else rest).versionsDetail = app.versionsDetail := by
  split
  · exact hmoved
  · exact hrest

/-- In the list only opening puts versions on display. -/
theorem listKey_versionsDetail
    {ans : Answers} {app : App} {code : KeyCode}
    (h : ¬ (code = .enter ∨ code = .char 'l')) :
    (listKey lower ans app code).versionsDetail = app.versionsDetail := by
  unfold listKey
  split
  · exact versionsDetail_ite rfl (versionsDetail_ite rfl rfl)
  · exact versionsDetail_ite rfl (versionsDetail_ite rfl rfl)
  · exact versionsDetail_ite rfl (versionsDetail_ite rfl rfl)
  · exact versionsDetail_ite rfl (versionsDetail_ite rfl rfl)
  · rfl
  · exact versionsDetail_ite rfl rfl
  · rfl
  · exact versionsDetail_ite rfl rfl
  · exact absurd (.inl rfl) h
  · exact absurd (.inr rfl) h
  · rfl
  · exact versionsDetail_ite rfl rfl
  · rfl
  · rfl
  · exact (fetchSecrets_frame lower ans app).2
  · rfl
  · rfl

theorem filteringKey_versionsDetail
    (app : App) (code : KeyCode) :
    (filteringKey lower app code).versionsDetail = app.versionsDetail := by
  unfold filteringKey
  split <;> rfl

/-- In Detail, away from closing and refreshing, nothing changes but the selected version. -/
theorem detailKey_frame
    (lower : Lowercase) (ans : Answers) (app : App) {code : KeyCode}
    (hclose : ¬ (code = .esc ∨ code = .char 'h'))
    (hrefresh : code ≠ .char 'r') :
    (detailKey lower ans app code).mode = app.mode ∧
      (detailKey lower ans app code).versionsDetail = app.versionsDetail := by
  have hprev : app.selectVersionPrev.mode = app.mode ∧
      app.selectVersionPrev.versionsDetail = app.versionsDetail := by
    unfold App.selectVersionPrev
    split_ifs <;> exact ⟨rfl, rfl⟩
  have hnext : app.selectVersionNext.mode = app.mode ∧
      app.selectVersionNext.versionsDetail = app.versionsDetail := by
    unfold App.selectVersionNext
    split
    · split_ifs <;> exact ⟨rfl, rfl⟩
    · exact ⟨rfl, rfl⟩
  unfold detailKey
  split
  · exact absurd (.inl rfl) hclose
  · exact absurd (.inr rfl) hclose
  · exact hprev
  · exact hprev
  · exact hnext
  · exact hnext
  · exact absurd rfl hrefresh
  · exact ⟨rfl, rfl⟩

/-- Outside Detail there is nothing to show wrongly. -/
theorem Browser.shows_of_not_opened
    {b : Browser}
    (h : b.opened = none) :
    b.Shows := by
  intro p hp
  rw [h] at hp
  cases hp

/-- A key that neither quits nor refreshes Detail. -/
theorem Browser.key_step
    {b : Browser} {ans : Answers} {code : KeyCode}
    (hinv : b.Inv)
    (hshows : b.Shows)
    (hcode : ¬ (b.app.mode = .detail ∧ code = .char 'r')) :
    (⟨handleKeyInput lower ans b.app code, openedAfter b code, b.quit⟩ : Browser).Inv ∧
      (⟨handleKeyInput lower ans b.app code, openedAfter b code, b.quit⟩ : Browser).Shows := by
  unfold handleKeyInput openedAfter
  cases hmode : b.app.mode with
  | filtering =>
      obtain ⟨hopened, hdetail⟩ := hinv (by rw [hmode]; decide)
      dsimp only
      refine ⟨fun _ => ⟨hopened, ?_⟩, shows_of_not_opened hopened⟩
      exact (filteringKey_versionsDetail b.app code).trans hdetail
  | detail =>
      dsimp only
      by_cases hclose : code = .esc ∨ code = .char 'h'
      · have happ : detailKey lower ans b.app code = b.app.closeDetail := by
          rcases hclose with rfl | rfl <;> rfl
        rw [if_pos hclose, happ]
        exact ⟨fun _ => ⟨rfl, rfl⟩, shows_of_not_opened rfl⟩
      · have hrefresh : code ≠ .char 'r' := fun hr => hcode ⟨hmode, hr⟩
        obtain ⟨hsame, hdetail⟩ := detailKey_frame lower ans b.app hclose hrefresh
        rw [if_neg hclose]
        refine ⟨fun hne => absurd (hsame.trans hmode) hne, ?_⟩
        intro p hp q versions hversions
        exact hshows p hp q versions (hdetail.symm.trans hversions)
  | list =>
      obtain ⟨hopened, hdetail⟩ := hinv (by rw [hmode]; decide)
      dsimp only
      by_cases hopen : code = .enter ∨ code = .char 'l'
      · have happ : listKey lower ans b.app code = fetchVersions ans b.app.openDetail := by
          rcases hopen with rfl | rfl <;> rfl
        rw [if_pos hopen, happ]
        obtain ⟨hkept, hframe⟩ := fetchVersions_frame ans b.app.openDetail
        refine ⟨fun hne => absurd hkept hne, ?_⟩
        intro p hp q versions hversions
        obtain ⟨row, hrow, rfl⟩ := Option.map_eq_some_iff.mp hp
        rcases hframe with ⟨hsame, -⟩ | ⟨row', versions', hrow', -, hnew⟩
        · have hnone := hsame.trans hdetail
          rw [hversions] at hnone
          cases hnone
        · cases hnew.symm.trans hversions
          cases hrow'.symm.trans hrow
          rfl
      · rw [if_neg hopen]
        refine ⟨fun _ => ⟨hopened, ?_⟩, shows_of_not_opened hopened⟩
        exact (listKey_versionsDetail hopen).trans hdetail

/-- Versions fetched again in Detail are those of the row the selection is on by then. -/
theorem Browser.refetch_step
    {b : Browser} {ans : Answers}
    (hmode : b.app.mode = .detail)
    (hshows : b.Shows) :
    let after : Browser := ⟨fetchVersions ans (fetchSecrets lower ans b.app), b.opened, b.quit⟩
    after.Inv ∧
      (after.Shows ↔ ∀ p, b.opened = some p → ∀ row, nextRow lower ans b.app = some row →
        (ans.versions row.path).isOk = true → row.path = p) := by
  intro after
  obtain ⟨hsecretsMode, hsecretsDetail⟩ := fetchSecrets_frame lower ans b.app
  obtain ⟨hmode', hframe⟩ := fetchVersions_frame ans (fetchSecrets lower ans b.app)
  rw [selectedSecret_fetchSecrets] at hframe
  refine ⟨fun hne => absurd (hmode'.trans (hsecretsMode.trans hmode)) hne, ?_⟩
  rcases hframe with ⟨hsame, hfails⟩ | ⟨row, versions, hrow, hversions, hnew⟩
  · -- nothing came back: what was on display stays
    constructor
    · intro _ p _ row hrow hok
      rw [hfails row hrow] at hok
      cases hok
    · intro _ p hp q versions hq
      exact hshows p hp q versions ((hsame.trans hsecretsDetail).symm.trans hq)
  · constructor
    · intro hafter p hp row' hrow' _
      cases hrow.symm.trans hrow'
      exact hafter p hp row.path versions hnew
    · intro hsteady p hp q shown hq
      cases hnew.symm.trans hq
      exact hsteady p hp row hrow (by rw [hversions]; rfl)

/-- A refresh outside Detail, or while paused, puts nothing on display. -/
theorem Browser.refresh_step
    {b : Browser} {ans : Answers}
    (hinv : b.Inv)
    (hshows : b.Shows)
    (hidle : ¬ (b.app.paused = false ∧ b.app.mode = .detail)) :
    (⟨refresh lower ans b.app, b.opened, b.quit⟩ : Browser).Inv ∧
      (⟨refresh lower ans b.app, b.opened, b.quit⟩ : Browser).Shows := by
  obtain ⟨hmode, hdetail⟩ := fetchSecrets_frame lower ans b.app
  unfold refresh
  by_cases hpaused : b.app.paused = true
  · rw [if_pos hpaused]
    exact ⟨hinv, hshows⟩
  · have hlist : b.app.mode ≠ .detail :=
      fun h => hidle ⟨Bool.eq_false_of_not_eq_true hpaused, h⟩
    obtain ⟨hopened, hempty⟩ := hinv hlist
    rw [if_neg hpaused, if_neg (hmode ▸ hlist)]
    exact ⟨fun _ => ⟨hopened, hdetail.trans hempty⟩, shows_of_not_opened hopened⟩

theorem quits_ne_refresh
    {app : App} {key : KeyEvent}
    (h : quits app key = true) :
    key.code ≠ .char 'r' := by
  intro hr
  simp [quits, hr] at h

theorem Browser.steady_of_quiet
    {b : Browser} {event : BrowserEvent}
    (h : event.refetches b = none) :
    b.Steady lower event := by
  intro ans hans
  rw [h] at hans
  cases hans

theorem Browser.steady_iff
    {b : Browser} {event : BrowserEvent} {ans : Answers}
    (h : event.refetches b = some ans) :
    b.Steady lower event ↔ ∀ p, b.opened = some p → ∀ row, nextRow lower ans b.app = some row →
      (ans.versions row.path).isOk = true → row.path = p := by
  refine ⟨fun hsteady => hsteady ans h, fun hrow ans' hans' => ?_⟩
  cases h.symm.trans hans'
  exact hrow

/-- An event that fetches nothing again is steady. -/
theorem Browser.step_quiet
    {b : Browser} {event : BrowserEvent}
    (hquiet : event.refetches b = none)
    (h : (b.step lower event).Inv ∧ (b.step lower event).Shows) :
    (b.step lower event).Inv ∧ ((b.step lower event).Shows ↔ b.Steady lower event) :=
  ⟨h.1, fun _ => steady_of_quiet hquiet, fun _ => h.2⟩

theorem Browser.Inv.step_refresh
    {b : Browser}
    (hinv : b.Inv)
    (hshows : b.Shows)
    (hopen : b.quit = false) (ans : Answers) :
    (b.step lower (.refresh ans)).Inv ∧
      ((b.step lower (.refresh ans)).Shows ↔ b.Steady lower (.refresh ans)) := by
  have hstep : b.step lower (.refresh ans) = ⟨refresh lower ans b.app, b.opened, b.quit⟩ := by
    simp [Browser.step, hopen]
  by_cases hdetail : b.app.paused = false ∧ b.app.mode = .detail
  · have happ : refresh lower ans b.app = fetchVersions ans (fetchSecrets lower ans b.app) := by
      have hmode := (fetchSecrets_frame lower ans b.app).1.trans hdetail.2
      simp [refresh, hdetail.1, hmode]
    have hfetch : (BrowserEvent.refresh ans).refetches b = some ans := if_pos ⟨hopen, hdetail⟩
    rw [Browser.steady_iff hfetch, hstep, happ]
    exact Browser.refetch_step hdetail.2 hshows
  · refine Browser.step_quiet (if_neg fun h => hdetail h.2) ?_
    rw [hstep]
    exact Browser.refresh_step hinv hshows hdetail

theorem Browser.Inv.step_key
    {b : Browser}
    (hinv : b.Inv)
    (hshows : b.Shows)
    (hopen : b.quit = false) (pressed : KeyEvent) (ans : Answers) :
    (b.step lower (.key pressed ans)).Inv ∧
      ((b.step lower (.key pressed ans)).Shows ↔ b.Steady lower (.key pressed ans)) := by
  by_cases hquits : quits b.app pressed = true
  · have hstep : b.step lower (.key pressed ans) = { b with quit := true } := by
      simp [Browser.step, hopen, hquits]
    refine Browser.step_quiet (if_neg fun h => quits_ne_refresh hquits h.2.2) ?_
    rw [hstep]
    exact ⟨hinv, hshows⟩
  have hstep : b.step lower (.key pressed ans) =
      ⟨handleKeyInput lower ans b.app pressed.code, openedAfter b pressed.code, b.quit⟩ := by
    simp [Browser.step, hopen, hquits]
  by_cases hrefresh : b.app.mode = .detail ∧ pressed.code = .char 'r'
  · have happ : handleKeyInput lower ans b.app pressed.code =
        fetchVersions ans (fetchSecrets lower ans b.app) := by
      simp [handleKeyInput, detailKey, hrefresh.1, hrefresh.2]
    have hopened : openedAfter b pressed.code = b.opened := by
      simp [openedAfter, hrefresh.1, hrefresh.2]
    have hfetch : (BrowserEvent.key pressed ans).refetches b = some ans :=
      if_pos ⟨hopen, hrefresh⟩
    rw [Browser.steady_iff hfetch, hstep, happ, hopened]
    exact Browser.refetch_step hrefresh.1 hshows
  · refine Browser.step_quiet (if_neg fun h => hrefresh h.2) ?_
    rw [hstep]
    exact Browser.key_step hinv hshows hrefresh

/-- A step keeps the invariant, and what is shown stays right exactly where the step is steady. -/
theorem Browser.Inv.step_frame
    {b : Browser}
    (hinv : b.Inv)
    (hshows : b.Shows)
    (event : BrowserEvent) :
    (b.step lower event).Inv ∧ ((b.step lower event).Shows ↔ b.Steady lower event) := by
  by_cases hquit : b.quit = true
  · have hstay : b.step lower event = b := if_pos hquit
    refine Browser.step_quiet ?_ (by rw [hstay]; exact ⟨hinv, hshows⟩)
    cases event <;> simp [BrowserEvent.refetches, hquit]
  · have hopen : b.quit = false := Bool.eq_false_of_not_eq_true hquit
    cases event with
    | refresh ans => exact hinv.step_refresh hshows hopen ans
    | key pressed ans => exact hinv.step_key hshows hopen pressed ans

theorem Browser.inv_start
    (socketPath : String) (ans : Answers) :
    (Browser.start lower socketPath ans).Inv := by
  intro _
  exact ⟨rfl, (fetchSecrets_frame lower ans (App.new socketPath)).2⟩

end Runs

/--
From the moment Detail is opened until it is closed the versions on display are
those of the opened secret, or none, exactly in the runs in which every fetch
that Detail repeats finds the selection on that secret.
-/
theorem pane_shows_opened_secret
    (lower : Lowercase) (socketPath : String) (ans : Answers) (events : List BrowserEvent) :
    (∀ past, past <+: events →
        (run (Browser.step lower) (Browser.start lower socketPath ans) past).Shows) ↔
      along (Browser.step lower) (Browser.Steady lower)
        (Browser.start lower socketPath ans) events := by
  have hshows : (Browser.start lower socketPath ans).Shows := Browser.shows_of_not_opened rfl
  exact along_iff_forall_prefix (fun _ event hinv hgood => (hinv.step_frame hgood event).1)
    (fun _ event hinv hgood => (hinv.step_frame hgood event).2)
    (Browser.inv_start socketPath ans) hshows events

section Witnesses

def devPath : SecretPath :=
  ⟨"dev/db", by decide⟩

/-- A secret of the list, with no tags. -/
def listed (path : SecretPath) : SecretSummaryDto :=
  ⟨path, none, 0, [], "2026-01-01T00:00:00Z"⟩

def answering (paths : List SecretPath) : Answers :=
  ⟨.ok (paths.map listed), fun _ => .ok [], "00:00:00 UTC"⟩

/-- Detail is opened on `prod/db`, and the next list has another secret in its row. -/
def openedThenInserted : List BrowserEvent :=
  [.key ⟨.enter, false⟩ (answering [Storage.samplePath]),
    .refresh (answering [devPath])]

/-- The versions of `dev/db` are displayed where `prod/db` was opened. -/
theorem other_secret_under_opened_row :
    (run (Browser.step asciiLowercase)
        (Browser.start asciiLowercase "s" (answering [Storage.samplePath]))
        openedThenInserted).opened = some Storage.samplePath ∧
      (run (Browser.step asciiLowercase)
        (Browser.start asciiLowercase "s" (answering [Storage.samplePath]))
        openedThenInserted).app.versionsDetail = some (devPath, []) ∧
      ¬ ∀ past, past <+: openedThenInserted →
        (run (Browser.step asciiLowercase)
          (Browser.start asciiLowercase "s" (answering [Storage.samplePath])) past).Shows := by
  have hopened : (run (Browser.step asciiLowercase)
      (Browser.start asciiLowercase "s" (answering [Storage.samplePath]))
      openedThenInserted).opened = some Storage.samplePath := by
    decide +kernel
  have hshown : (run (Browser.step asciiLowercase)
      (Browser.start asciiLowercase "s" (answering [Storage.samplePath]))
      openedThenInserted).app.versionsDetail = some (devPath, []) := by
    decide +kernel
  refine ⟨hopened, hshown, fun hall => ?_⟩
  have hsame := hall openedThenInserted (List.prefix_refl _) _ hopened _ _ hshown
  revert hsame
  decide

end Witnesses

end Cli
end Secretbae
