import Secretbae.Daemon.Host
import Secretbae.Lib.Text

/-!
# The files of the store and the sockets

`open_store` and `server::bind`, section by section.  The database keeps two
files beside its own, named after it; `open_store` finds all three by replacing
the extension of the configured path.  Those are the same files exactly where
the path has an extension (`open_store_restricts_iff`); otherwise a new database
keeps the mode that it was created with, in which others may read it.

A socket is restricted before it is handed over (`bind_exposes`).
-/

namespace Secretbae
namespace Daemon

open Lib Core Audit Storage Policies

/-- A path with a file name. -/
structure FilePath where
  dir : List Char
  name : List Char
  nonempty : name ≠ []
  isName : '/' ∉ name ∧ name ≠ ['.'] ∧ name ≠ ['.', '.']

namespace FilePath

/-- The path with another file name. -/
def withName (path : FilePath) (name : List Char) : List Char :=
  path.dir ++ '/' :: name

def text (path : FilePath) : List Char :=
  path.withName path.name

/-- `Path::file_stem` and `Path::extension`. -/
def splitExtension (name : List Char) : List Char × Option (List Char) :=
  match rsplitOnce '.' name with
  | none => (name, none)
  | some ([], _) => (name, none)
  | some (stem, extension) => (stem, some extension)

/-- `Path::with_extension`, of a file name. -/
def withExtension (name extension : List Char) : List Char :=
  (splitExtension name).1 ++ if extension = [] then [] else '.' :: extension

/-- The suffixes that `open_store` goes through, as the database has them. -/
def suffixes : List (List Char) :=
  [[], "-wal".toList, "-shm".toList]

/-- What `open_store` takes for a file of the database. -/
def sidecar (path : FilePath) (suffix : List Char) : List Char :=
  path.withName
    (withExtension path.name (((splitExtension path.name).2.getD "db".toList) ++ suffix))

/-- The files of the database at a path. -/
def databaseFile (path : FilePath) (suffix : List Char) : List Char :=
  path.withName (path.name ++ suffix)

/-- The name goes on after a dot that it does not start with. -/
def HasExtension (path : FilePath) : Prop :=
  ∃ stem extension, stem ≠ [] ∧ extension ≠ [] ∧ '.' ∉ extension ∧
    path.name = stem ++ '.' :: extension

end FilePath

/-- The metadata of a file that the process creates. -/
def Host.creates (env : LaunchEnv) (h : Host) (mode : UInt32) : FileMeta :=
  ⟨mode &&& ~~~env.umask, h.process.credentials.euid, h.process.credentials.egid⟩

def Host.setFile (h : Host) (path : List Char) (file : Option FileMeta) : Host :=
  { h with files := Function.update h.files path file }

@[simp] theorem Host.setFile_self
    (h : Host) (path : List Char) (file : Option FileMeta) :
    (h.setFile path file).files path = file :=
  Function.update_self _ _ _

theorem Host.setFile_of_ne
    (h : Host) {path other : List Char} (file : Option FileMeta)
    (hne : other ≠ path) :
    (h.setFile path file).files other = h.files other :=
  Function.update_of_ne hne _ _

section Files

variable (env : LaunchEnv)

/-- A call that changes the metadata of a file. -/
def changeFile (label : LaunchSection) (path : List Char) (change : FileMeta → FileMeta) :
    LaunchCode Unit :=
  Script.atomically label fun h =>
    match env.fails label, h.files path with
    | some reason, _ => (.error (.startup (.io reason)), h)
    | none, none => (.error (.startup (.io "No such file or directory (os error 2)")), h)
    | none, some file => (.ok (), h.setFile path (some (change file)))

/-- `fs::set_permissions`. -/
def setPermissions (path : List Char) (mode : UInt32) : LaunchCode Unit :=
  changeFile env (.setPermissions path) path fun file => { file with mode := mode }

/-- `chown`. -/
def chown (path : List Char) (account : Account) : LaunchCode Unit :=
  changeFile env (.chown path) path fun file => { file with uid := account.uid, gid := account.gid }

/-- `fs::create_dir_all`. -/
def createDirAll (path : List Char) : LaunchCode Unit :=
  systemCall env (.createDir path) .io fun h =>
    if (h.files path).isSome then h else h.setFile path (some (h.creates env 0o777))

/-- `Path::exists`. -/
def pathExists (path : List Char) : LaunchCode Bool :=
  Script.atomically (.exists path) fun h => (.ok (h.files path).isSome, h)

/-- `Store::open`, as far as its files go. -/
def openDatabase (path : FilePath) : LaunchCode Unit :=
  Script.atomically .openDatabase fun h =>
    (env.openDatabase.mapError fun e => .startup (.store e),
      { h with
        files := fun file =>
          if file ∈ FilePath.suffixes.map path.databaseFile then
            (h.files file).or (env.databaseFile file)
          else h.files file })

/-- The loop of `open_store`. -/
def tighten (account : Account) : List (List Char) → LaunchCode Unit
  | [] => pure ()
  | file :: files => do
      let there ← pathExists file
      if there then do
        setPermissions env file 0o600
        chown env file account
        tighten account files
      else tighten account files

/-- `open_store`. -/
def openStore (path : FilePath) (account : Account) : LaunchCode Unit := do
  createDirAll env path.dir
  setPermissions env path.dir 0o700
  openDatabase env path
  tighten env account (FilePath.suffixes.map path.sidecar)
  chown env path.dir account

/-- `UnixListener::bind`. -/
def bindListener (path : List Char) : LaunchCode Unit :=
  Script.atomically (.bind path) fun h =>
    match env.fails (.bind path), h.files path with
    | some reason, _ => (.error (.startup (.io reason)), h)
    | none, some _ => (.error (.startup (.io "Address already in use (os error 98)")), h)
    | none, none => (.ok (), h.setFile path (some (h.creates env 0o777)))

/-- A stale socket is removed. -/
def removeExisting (path : List Char) : LaunchCode Unit := do
  let there ← pathExists path
  if there then systemCall env (.removeFile path) .io fun h => h.setFile path none
  else pure ()

/-- `server::bind`. -/
def bindSocket (path : FilePath) (mode : UInt32) (account : Account) : LaunchCode Unit := do
  createDirAll env path.dir
  chown env path.dir account
  removeExisting env path.text
  bindListener env path.text
  systemCall env (.setNonblocking path.text) .io id
  setPermissions env path.text mode
  chown env path.text account

end Files

namespace FilePath

variable {path : FilePath}

theorem withName_inj
    {name name' : List Char} :
    path.withName name = path.withName name' ↔ name = name' := by
  simp [withName]

theorem withName_ne_dir
    (path : FilePath) (name : List Char) :
    path.withName name ≠ path.dir := by
  intro h
  have hlength := congrArg List.length h
  simp only [withName, List.length_append, List.length_cons] at hlength
  omega

theorem dir_notMem_sidecars
    (path : FilePath) :
    path.dir ∉ suffixes.map path.sidecar := by
  rw [List.mem_map]
  rintro ⟨suffix, -, heq⟩
  exact path.withName_ne_dir _ heq

theorem dir_notMem_databaseFiles
    (path : FilePath) :
    path.dir ∉ suffixes.map path.databaseFile := by
  rw [List.mem_map]
  rintro ⟨suffix, -, heq⟩
  exact path.withName_ne_dir _ heq

theorem text_mem_databaseFiles
    (path : FilePath) :
    path.text ∈ suffixes.map path.databaseFile :=
  List.mem_map.mpr ⟨[], List.mem_cons_self, by simp [databaseFile, text]⟩

theorem splitExtension_eq_some_iff
    {name stem extension : List Char} :
    splitExtension name = (stem, some extension) ↔
      stem ≠ [] ∧ '.' ∉ extension ∧ name = stem ++ '.' :: extension := by
  unfold splitExtension
  constructor
  · intro h
    split at h
    · cases h
    · cases h
    · rename_i stem' extension' hstem hsplit
      cases h
      obtain ⟨hname, hdot⟩ := rsplitOnce_eq_some_iff.mp hsplit
      refine ⟨?_, hdot, hname⟩
      rintro rfl
      exact hstem rfl
  · rintro ⟨hstem, hdot, rfl⟩
    have hsplit := rsplitOnce_eq_some_iff.mpr ⟨(rfl : stem ++ '.' :: extension = _), hdot⟩
    rw [hsplit]
    cases stem with
    | nil => exact absurd rfl hstem
    | cons c stem => rfl

/-- With an extension the files are found. -/
theorem sidecar_eq
    (h : path.HasExtension) (suffix : List Char) :
    path.sidecar suffix = path.databaseFile suffix := by
  obtain ⟨stem, extension, hstem, hextension, hdot, hname⟩ := h
  have hsplit := splitExtension_eq_some_iff.mpr ⟨hstem, hdot, hname⟩
  rw [sidecar, databaseFile, withName_inj, withExtension, hsplit, hname]
  simp [hextension]

/-- Without one, none of them is the database itself. -/
theorem text_notMem_sidecars
    (h : ¬ path.HasExtension) :
    path.text ∉ suffixes.map path.sidecar := by
  rw [List.mem_map]
  rintro ⟨suffix, -, heq⟩
  rw [sidecar, text, withName_inj, withExtension] at heq
  rcases hsplit : splitExtension path.name with ⟨stem, extension | extension⟩
  · -- the whole name is the stem
    have hstem : stem = path.name := by
      unfold splitExtension at hsplit
      split at hsplit <;> cases hsplit <;> rfl
    rw [hsplit, hstem] at heq
    simp at heq
  · obtain ⟨hstem, hdot, hname⟩ := splitExtension_eq_some_iff.mp hsplit
    have hempty : extension = [] := by
      by_contra hne
      exact h ⟨stem, extension, hstem, hne, hdot, hname⟩
    rw [hsplit, hname, hempty] at heq
    have hcut := List.append_cancel_left heq
    by_cases hsuffix : suffix = [] <;> simp [hsuffix] at hcut

end FilePath

/-- `crash` says nothing of files. -/
def IgnoresFiles (crash : Host → Prop) : Prop :=
  ∀ h files, crash h → crash { h with files := files }

/-- Code that changes nothing but files. -/
def OnlyFiles {A : Type} (code : LaunchCode A) : Prop :=
  ∀ crash h, IgnoresFiles crash → crash h →
    code.Safe crash (fun _ h' => ∃ files, h' = { h with files := files }) h

section OnlyFiles

variable {A B : Type} {env : LaunchEnv} {account : Account}

theorem OnlyFiles.bind
    {x : LaunchCode A} {k : A → LaunchCode B}
    (hx : OnlyFiles x)
    (hk : ∀ a, OnlyFiles (k a)) :
    OnlyFiles (x >>= k) := by
  intro crash h hcrash hh
  refine (hx crash h hcrash hh).bind ?_
  rintro a _ hh' ⟨files, rfl⟩
  exact (hk a crash _ hcrash hh').mono fun _ _ h' => h'

theorem onlyFiles_atomically
    {label : LaunchSection} {act : Host → Except LaunchError A × Host}
    (h : ∀ h, ∃ files, (act h).2 = { h with files := files }) :
    OnlyFiles (Script.atomically label act) := by
  intro crash host hcrash hhost
  obtain ⟨files, heq⟩ := h host
  exact .atomically hhost (heq ▸ hcrash host files hhost) fun _ _ => ⟨files, heq⟩

theorem onlyFiles_changeFile
    {label : LaunchSection} {path : List Char} {change : FileMeta → FileMeta} :
    OnlyFiles (changeFile env label path change) := by
  refine onlyFiles_atomically fun h => ?_
  split
  · exact ⟨h.files, rfl⟩
  · exact ⟨h.files, rfl⟩
  · exact ⟨_, rfl⟩

theorem onlyFiles_systemCall
    {label : LaunchSection} {error : String → StartupError} {effect : Host → Host}
    (h : ∀ h, ∃ files, effect h = { h with files := files }) :
    OnlyFiles (systemCall env label error effect) := by
  refine onlyFiles_atomically fun host => ?_
  split
  · exact ⟨host.files, rfl⟩
  · exact h host

theorem onlyFiles_createDirAll
    {path : List Char} :
    OnlyFiles (createDirAll env path) := by
  refine onlyFiles_systemCall fun h => ?_
  split
  · exact ⟨h.files, rfl⟩
  · exact ⟨_, rfl⟩

theorem onlyFiles_pathExists
    {path : List Char} :
    OnlyFiles (pathExists path) :=
  onlyFiles_atomically fun h => ⟨h.files, rfl⟩

theorem onlyFiles_pure
    (a : A) :
    OnlyFiles (pure a) :=
  fun _ h _ hh => ⟨hh, h.files, rfl⟩

theorem onlyFiles_tighten
    (files : List (List Char)) :
    OnlyFiles (tighten env account files) := by
  induction files with
  | nil =>
      exact onlyFiles_pure ()
  | cons file files ih =>
      refine onlyFiles_pathExists.bind fun there => ?_
      split
      · exact onlyFiles_changeFile.bind fun _ => onlyFiles_changeFile.bind fun _ => ih
      · exact ih

theorem onlyFiles_openStore
    {path : FilePath} :
    OnlyFiles (openStore env path account) := by
  refine onlyFiles_createDirAll.bind fun _ => onlyFiles_changeFile.bind fun _ => ?_
  refine OnlyFiles.bind (onlyFiles_atomically fun h => ⟨_, rfl⟩) fun _ => ?_
  exact (onlyFiles_tighten _).bind fun _ => onlyFiles_changeFile

theorem onlyFiles_bindSocket
    {path : FilePath} {mode : UInt32} :
    OnlyFiles (bindSocket env path mode account) := by
  refine onlyFiles_createDirAll.bind fun _ => onlyFiles_changeFile.bind fun _ => ?_
  refine OnlyFiles.bind (onlyFiles_pathExists.bind fun there => ?_) fun _ => ?_
  · split
    · exact onlyFiles_systemCall fun h => ⟨_, rfl⟩
    · exact onlyFiles_pure ()
  refine OnlyFiles.bind (onlyFiles_atomically fun h => ?_) fun _ => ?_
  · split
    · exact ⟨h.files, rfl⟩
    · exact ⟨h.files, rfl⟩
    · exact ⟨_, rfl⟩
  refine OnlyFiles.bind (onlyFiles_systemCall fun h => ⟨h.files, rfl⟩) fun _ => ?_
  exact onlyFiles_changeFile.bind fun _ => onlyFiles_changeFile

end OnlyFiles

section Effects

variable {env : LaunchEnv} {account : Account} {h h' : Host}

theorem pathExists_alone
    (path : List Char) (h : Host) :
    (pathExists path).alone h = (.ok (h.files path).isSome, h) := by
  rfl

theorem changeFile_eq_ok
    {label : LaunchSection} {path : List Char} {change : FileMeta → FileMeta}
    (hrun : (changeFile env label path change).alone h = (.ok (), h')) :
    ∃ file, h.files path = some file ∧ h' = h.setFile path (some (change file)) := by
  rw [changeFile, Script.alone_atomically] at hrun
  split at hrun
  · cases hrun
  · cases hrun
  · rename_i file hfails hfile
    cases hrun
    exact ⟨file, hfile, rfl⟩

theorem systemCall_eq_ok
    {label : LaunchSection} {error : String → StartupError} {effect : Host → Host}
    (hrun : (systemCall env label error effect).alone h = (.ok (), h')) :
    h' = effect h := by
  rw [systemCall, Script.alone_atomically] at hrun
  split at hrun
  · cases hrun
  · cases hrun
    rfl

/-- What a restricted file looks like. -/
def restricted (account : Account) : FileMeta :=
  ⟨0o600, account.uid, account.gid⟩

/-- The loop restricts the files that are there, and no others. -/
theorem tighten_files
    {files : List (List Char)}
    (hrun : (tighten env account files).alone h = (.ok (), h')) (file : List Char) :
    h'.files file =
      if file ∈ files then (h.files file).map fun _ => restricted account else h.files file := by
  induction files generalizing h with
  | nil =>
      cases hrun
      rfl
  | cons first files ih =>
      rw [tighten, Script.alone_bind, pathExists_alone, Script.andThen_ok] at hrun
      split at hrun
      · obtain ⟨⟨⟩, h₁, hmode, hrun⟩ := Script.alone_bind_eq_ok hrun
        obtain ⟨⟨⟩, h₂, howner, hrun⟩ := Script.alone_bind_eq_ok hrun
        obtain ⟨found, hfound, rfl⟩ := changeFile_eq_ok hmode
        obtain ⟨found', hfound', rfl⟩ := changeFile_eq_ok howner
        rw [Host.setFile_self] at hfound'
        cases hfound'
        rw [ih hrun]
        by_cases heq : file = first
        · subst heq
          simp [hfound, restricted]
        · simp [Host.setFile_of_ne _ _ heq, heq]
      · rename_i hnone
        rw [ih hrun]
        by_cases heq : file = first
        · subst heq
          have habsent : h.files file = none := by simpa using hnone
          simp [habsent]
        · simp [heq]

/-- The file of the database, as far as it is there. -/
def opened (env : LaunchEnv) (path : FilePath) (h : Host) (file : List Char) :
    Option FileMeta :=
  if file ∈ FilePath.suffixes.map path.databaseFile then
    (h.files file).or (env.databaseFile file)
  else h.files file

theorem openDatabase_files
    (path : FilePath) (h : Host) (file : List Char) :
    ((openDatabase env path).alone h).2.files file = opened env path h file := by
  rfl

theorem openStore_files
    {path : FilePath}
    (hrun : (openStore env path account).alone h = (.ok (), h'))
    {file : List Char} (hdir : file ≠ path.dir) :
    h'.files file =
      if file ∈ FilePath.suffixes.map path.sidecar then
        (opened env path h file).map fun _ => restricted account
      else opened env path h file := by
  obtain ⟨⟨⟩, h₁, hcreate, hrun⟩ := Script.alone_bind_eq_ok hrun
  obtain ⟨⟨⟩, h₂, hmode, hrun⟩ := Script.alone_bind_eq_ok hrun
  obtain ⟨⟨⟩, h₃, hopen, hrun⟩ := Script.alone_bind_eq_ok hrun
  obtain ⟨⟨⟩, h₄, htighten, howner⟩ := Script.alone_bind_eq_ok hrun
  have hfirst : h₁.files file = h.files file := by
    rw [systemCall_eq_ok hcreate]
    split
    · rfl
    · exact h.setFile_of_ne _ hdir
  obtain ⟨_, -, rfl⟩ := changeFile_eq_ok hmode
  obtain ⟨_, -, rfl⟩ := changeFile_eq_ok howner
  have hthird : h₃.files file = opened env path h file := by
    rw [← show _ = h₃ from congrArg Prod.snd hopen, openDatabase_files, opened, opened,
      Host.setFile_of_ne _ _ hdir, hfirst]
  rw [Host.setFile_of_ne _ _ hdir, tighten_files htighten, hthird]

/-- Nothing fails. -/
structure LaunchEnv.Quiet (env : LaunchEnv) : Prop where
  fails : ∀ label, env.fails label = none
  openDatabase : env.openDatabase = .ok ()

theorem changeFile_alone
    {label : LaunchSection} {path : List Char} {change : FileMeta → FileMeta} {file : FileMeta}
    (henv : env.Quiet)
    (hfile : h.files path = some file) :
    (changeFile env label path change).alone h =
      (.ok (), h.setFile path (some (change file))) := by
  rw [changeFile, Script.alone_atomically, henv.fails, hfile]

theorem tighten_alone
    (henv : env.Quiet) (account : Account) (files : List (List Char)) (h : Host) :
    ∃ h', (tighten env account files).alone h = (.ok (), h') := by
  induction files generalizing h with
  | nil =>
      exact ⟨h, rfl⟩
  | cons first files ih =>
      rw [tighten, Script.alone_bind, pathExists_alone, Script.andThen_ok]
      cases hfile : h.files first with
      | none => exact ih h
      | some file =>
          simp only [Option.isSome_some, if_true]
          rw [Script.alone_bind, setPermissions, changeFile_alone henv hfile, Script.andThen_ok,
            Script.alone_bind, chown, changeFile_alone henv (Host.setFile_self _ _ _),
            Script.andThen_ok]
          exact ih _

/-- Where nothing fails and there is a directory, the store is opened. -/
theorem openStore_alone
    {path : FilePath} {dir : FileMeta}
    (henv : env.Quiet)
    (hdir : h.files path.dir = some dir) :
    ∃ h', (openStore env path account).alone h = (.ok (), h') := by
  have hcreate : (createDirAll env path.dir).alone h = (.ok (), h) := by
    rw [createDirAll, systemCall, Script.alone_atomically, henv.fails, hdir]
    rfl
  rw [openStore, Script.alone_bind, hcreate, Script.andThen_ok, Script.alone_bind,
    setPermissions, changeFile_alone henv hdir, Script.andThen_ok, Script.alone_bind]
  set h₂ := h.setFile path.dir (some { dir with mode := 0o700 }) with hh₂
  set h₃ := ((openDatabase env path).alone h₂).2 with hh₃
  have hopen : (openDatabase env path).alone h₂ = (.ok (), h₃) := by
    refine Prod.ext ?_ rfl
    rw [openDatabase, Script.alone_atomically, henv.openDatabase]
    rfl
  obtain ⟨h₄, htighten⟩ := tighten_alone henv account (FilePath.suffixes.map path.sidecar) h₃
  have hkept : h₄.files path.dir = some { dir with mode := 0o700 } := by
    rw [tighten_files htighten, if_neg path.dir_notMem_sidecars, hh₃, openDatabase_files, opened,
      if_neg path.dir_notMem_databaseFiles, hh₂, Host.setFile_self]
  rw [hopen, Script.andThen_ok, Script.alone_bind, htighten, Script.andThen_ok]
  exact ⟨_, changeFile_alone henv hkept⟩

/-- A start in which nothing fails. -/
def LaunchEnv.quiet (account : Account) : LaunchEnv where
  fails _ := none
  errno _ := ""
  umask := 0o022
  memlockLimit := none
  account := .ok account
  load := ⟨.ok (), .ok ()⟩
  openDatabase := .ok ()
  databaseFile _ := some ⟨0o644, 0, 0⟩
  seed := .ok ()
  seeded := ⟨0, by decide⟩
  recorded := 0
  writable := true

/-- A process of root's, as it is started. -/
def rootProcess : Process where
  credentials := ⟨0, 0, 0, 0, 0, 0, [0], true, true⟩
  dumpable := .always
  locked := false
  backend := none
  master := none

/-- A directory in which there is nothing yet. -/
def freshHost (path : FilePath) : Host where
  process := rootProcess
  files file := if file = path.dir then some ⟨0o755, 0, 0⟩ else none
  deployment := ⟨none, Store.empty, Access.empty, AuditLog.empty⟩

/-- The mode lets everyone read the file. -/
def FileMeta.ReadableByOthers (file : FileMeta) : Prop :=
  file.mode &&& 0o004 ≠ 0

instance (file : FileMeta) : Decidable file.ReadableByOthers :=
  inferInstanceAs (Decidable (_ ≠ _))

theorem not_readable_restricted
    (account : Account) :
    ¬ (restricted account).ReadableByOthers :=
  fun h => h (show (0o600 : UInt32) &&& 0o004 = 0 by decide)

/-- Without an extension a new database is not found again, and keeps its mode. -/
theorem exists_openStore_readable
    {path : FilePath} (account : Account)
    (hno : ¬ path.HasExtension) :
    ∃ env h h' found, (openStore env path account).alone h = (.ok (), h') ∧
      h'.files path.text = some found ∧ found.ReadableByOthers := by
  have hquiet : (LaunchEnv.quiet account).Quiet := ⟨fun _ => rfl, rfl⟩
  have hdir : (freshHost path).files path.dir = some ⟨0o755, 0, 0⟩ := if_pos rfl
  obtain ⟨h', hrun⟩ : ∃ h', (openStore (.quiet account) path account).alone (freshHost path) =
      (.ok (), h') := openStore_alone hquiet hdir
  have hne : path.text ≠ path.dir := path.withName_ne_dir _
  have habsent : (freshHost path).files path.text = none := if_neg hne
  refine ⟨_, _, h', ⟨0o644, 0, 0⟩, hrun, ?_, by decide⟩
  rw [openStore_files hrun hne, if_neg (FilePath.text_notMem_sidecars hno), opened,
    if_pos path.text_mem_databaseFiles, habsent]
  rfl

/--
The store's files are left restricted, whatever was there, exactly where the
configured path has an extension; where it has none, there is a start that leaves
the database readable by others.
-/
theorem open_store_restricts_iff
    (path : FilePath) (account : Account) :
    ((∀ env h h', (openStore env path account).alone h = (.ok (), h') →
        ∀ file ∈ FilePath.suffixes.map path.databaseFile, ∀ found, h'.files file = some found →
          found = restricted account) ↔
      path.HasExtension) ∧
    (¬ path.HasExtension →
      ∃ env h h' found, (openStore env path account).alone h = (.ok (), h') ∧
        h'.files path.text = some found ∧ found.ReadableByOthers) := by
  refine ⟨⟨?_, ?_⟩, exists_openStore_readable account⟩
  · intro hall
    by_contra hno
    obtain ⟨env, h, h', found, hrun, hfound, hreadable⟩ := exists_openStore_readable account hno
    have heq := hall env h h' hrun _ path.text_mem_databaseFiles found hfound
    exact not_readable_restricted account (heq ▸ hreadable)
  · intro hextension env h h' hrun file hfile found hfound
    have hdir : file ≠ path.dir := by
      rintro rfl
      exact path.dir_notMem_databaseFiles hfile
    have hsidecar : file ∈ FilePath.suffixes.map path.sidecar := by
      obtain ⟨suffix, hsuffix, rfl⟩ := List.mem_map.mp hfile
      exact List.mem_map.mpr ⟨suffix, hsuffix, FilePath.sidecar_eq hextension suffix⟩
    rw [openStore_files hrun hdir, if_pos hsidecar, Option.map_eq_some_iff] at hfound
    obtain ⟨-, -, rfl⟩ := hfound
    rfl

theorem safe_changeFile
    {crash : Host → Prop} {label : LaunchSection} {path : List Char}
    {change : FileMeta → FileMeta}
    (hh : crash h)
    (hchange : ∀ file, h.files path = some file → crash (h.setFile path (some (change file)))) :
    (changeFile env label path change).Safe crash
      (fun _ h' => ∃ file, h.files path = some file ∧
        h' = h.setFile path (some (change file))) h := by
  rw [changeFile]
  cases hfails : env.fails label with
  | some reason => exact .atomically hh hh nofun
  | none =>
      cases hfile : h.files path with
      | none =>
          refine .atomically hh ?_ ?_
          · simp only [hfile]
            exact hh
          · intro a ha
            simp only [hfile] at ha
            cases ha
      | some file =>
          refine .atomically hh ?_ ?_
          · simp only [hfile]
            exact hchange file hfile
          · intro a ha
            simp only [hfile]
            exact ⟨file, rfl, rfl⟩

/-- How far a socket has come: the one found, none, one of the process, or the service's. -/
structure SocketStage (path : FilePath) (mode : UInt32) (account : Account)
    (h₀ h : Host) : Prop where
  process : h.process = h₀.process
  stage :
    h.files path.text = h₀.files path.text ∨ h.files path.text = none ∨
      (∃ mode', h.files path.text =
        some ⟨mode', h₀.process.credentials.euid, h₀.process.credentials.egid⟩) ∨
      h.files path.text = some ⟨mode, account.uid, account.gid⟩

/-- What happens to the directory is no stage of the socket. -/
theorem SocketStage.setFile_dir
    {path : FilePath} {mode : UInt32} {h₀ : Host}
    (h : SocketStage path mode account h₀ h') (file : Option FileMeta) :
    SocketStage path mode account h₀ (h'.setFile path.dir file) := by
  refine ⟨h.process, ?_⟩
  have htext : path.text ≠ path.dir := path.withName_ne_dir path.name
  rw [Host.setFile_of_ne _ _ htext]
  exact h.stage

/-- The stages of a socket are gone through, and the last of them is reached. -/
theorem safe_bindSocket
    (path : FilePath) (mode : UInt32) (h : Host) :
    (bindSocket env path mode account).Safe (SocketStage path mode account h)
      (fun _ h' => h'.files path.text = some ⟨mode, account.uid, account.gid⟩) h := by
  have hstart : SocketStage path mode account h h := ⟨rfl, .inl rfl⟩
  have hcreate : SocketStage path mode account h
      (if (h.files path.dir).isSome then h
        else h.setFile path.dir (some (h.creates env 0o777))) := by
    split
    · exact hstart
    · exact hstart.setFile_dir _
  refine (safe_systemCall hstart hcreate).bind ?_
  rintro _ h₁ hh₁ -
  refine (safe_changeFile hh₁ fun _ _ => hh₁.setFile_dir _).bind ?_
  rintro _ h₂ hh₂ -
  have hremove : (removeExisting env path.text).Safe (SocketStage path mode account h)
      (fun _ h' => h'.files path.text = none) h₂ := by
    refine (safe_looking _ hh₂).bind ?_
    rintro there _ - ⟨rfl, rfl⟩
    split
    · refine (safe_systemCall hh₂ ⟨hh₂.process, .inr (.inl (Host.setFile_self _ _ _))⟩).mono ?_
      rintro _ _ rfl
      exact Host.setFile_self _ _ _
    · rename_i hnone
      exact ⟨hh₂, by simpa using hnone⟩
  refine hremove.bind ?_
  rintro _ h₃ hh₃ habsent
  have hbind : (bindListener env path.text).Safe (SocketStage path mode account h)
      (fun _ h' => ∃ mode', h'.files path.text =
        some ⟨mode', h.process.credentials.euid, h.process.credentials.egid⟩) h₃ := by
    rw [bindListener]
    cases hfails : env.fails (.bind path.text) with
    | some reason => exact .atomically hh₃ hh₃ nofun
    | none =>
        have hnew : (h₃.setFile path.text (some (h₃.creates env 0o777))).files path.text =
            some ⟨0o777 &&& ~~~env.umask, h.process.credentials.euid,
              h.process.credentials.egid⟩ := by
          rw [Host.setFile_self, Host.creates, hh₃.process]
        refine .atomically hh₃ ?_ ?_
        · simp only [habsent]
          exact ⟨hh₃.process, .inr (.inr (.inl ⟨_, hnew⟩))⟩
        · intro a _
          simp only [habsent]
          exact ⟨_, hnew⟩
  refine hbind.bind ?_
  rintro _ h₄ hh₄ ⟨mode', hbound⟩
  refine (safe_systemCall hh₄ hh₄).bind ?_
  rintro _ _ - rfl
  -- the mode comes before the owner
  refine (safe_changeFile hh₄ ?_).bind ?_
  · intro file hfile
    refine ⟨hh₄.process, .inr (.inr (.inl ⟨mode, ?_⟩))⟩
    cases hbound.symm.trans hfile
    exact Host.setFile_self _ _ _
  rintro _ h₅ hh₅ ⟨file, hfile, rfl⟩
  cases hbound.symm.trans hfile
  refine (safe_changeFile hh₅ ?_).mono ?_
  · intro file hfile
    refine ⟨hh₅.process, .inr (.inr (.inr ?_))⟩
    rw [Host.setFile_self] at hfile ⊢
    cases hfile
    rfl
  · rintro _ h₆ ⟨file, hfile, rfl⟩
    rw [Host.setFile_self] at hfile ⊢
    cases hfile
    rfl

/--
Wherever `bind` is stopped, a socket that belongs to the service is one that was
there before or has its mode already; a socket that is bound has both.
-/
theorem bind_exposes
    (env : LaunchEnv) (path : FilePath) (mode : UInt32) (account : Account) (h : Host)
    (haccount : account.uid ≠ h.process.credentials.euid) :
    (∀ k file, ((bindSocket env path mode account).stopped k h).files path.text = some file →
      file.uid = account.uid → h.files path.text = some file ∨ file.mode = mode) ∧
    ∀ h', (bindSocket env path mode account).alone h = (.ok (), h') →
      h'.files path.text = some ⟨mode, account.uid, account.gid⟩ := by
  refine ⟨?_, fun h' hrun => (safe_bindSocket path mode h).alone hrun⟩
  intro k file hfile huid
  have hat : SocketStage path mode account h
      ((bindSocket env path mode account).stopped k h) :=
    (safe_bindSocket path mode h).stopped k
  have hstage := hat.stage
  rw [hfile] at hstage
  rcases hstage with hfound | hnone | ⟨mode', hroot⟩ | hservice
  · exact .inl hfound.symm
  · cases hnone
  · cases hroot
    exact absurd huid.symm haccount
  · cases hservice
    exact .inr rfl

end Effects

def sampleSocket : FilePath :=
  ⟨"/run".toList, "sock".toList, by decide, by decide⟩

theorem bind_exposes_sample :
    ∃ h', (bindSocket (.quiet ⟨990, 990⟩) sampleSocket 0o666 ⟨990, 990⟩).alone
        (freshHost sampleSocket) = (.ok (), h') ∧
      h'.files sampleSocket.text = some ⟨0o666, 990, 990⟩ := by
  have hok : ((bindSocket (.quiet ⟨990, 990⟩) sampleSocket 0o666 ⟨990, 990⟩).alone
      (freshHost sampleSocket)).1.isOk = true := by
    decide +kernel
  rcases hrun : (bindSocket (.quiet ⟨990, 990⟩) sampleSocket 0o666 ⟨990, 990⟩).alone
      (freshHost sampleSocket) with ⟨_ | _, h'⟩
  · rw [hrun] at hok
    cases hok
  · obtain ⟨-, hbound⟩ := bind_exposes (.quiet ⟨990, 990⟩) sampleSocket 0o666 ⟨990, 990⟩
      (freshHost sampleSocket) (by decide)
    exact ⟨h', rfl, hbound h' hrun⟩

end Daemon
end Secretbae
