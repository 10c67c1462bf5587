import Secretbae.Store.Tags

/-!
# Listings

`list`, `versions` and `secret_count`: what the store says about secrets
without any ciphertext.  A timestamp that is out of range fails a listing as a
whole, as it does in the source, and so does a filter whose query SQLite refuses.
-/

namespace Secretbae
namespace Storage

open Lib Proto Core

/-- Which secrets to list. -/
structure ListFilter where
  pathPrefix : Option String
  tags : List Tag
  includeEmpty : Bool

/-- Metadata of a secret. -/
structure SecretSummary where
  path : SecretPath
  currentVersion : Option Version
  versionCount : Nat
  tags : List Tag
  createdAt : UnixTime
  updatedAt : UnixTime
deriving DecidableEq

/-- `trim_end_matches('/')`. -/
def trimSlashes (s : List Char) : List Char :=
  (s.reverse.dropWhile (fun c => c == '/')).reverse

/-- `path = ?n OR substr(path, 1, length(?n) + 1) = ?n || '/'`. -/
def underPrefix (bound path : List Char) : Bool :=
  decide (path = bound ∨ path.take (bound.length + 1) = bound ++ ['/'])

/-- The condition on the path; an empty prefix is none. -/
def ListFilter.selectsPath (filter : ListFilter) (path : SecretPath) : Bool :=
  match filter.pathPrefix with
  | none => true
  | some p => decide (p = "") || underPrefix (trimSlashes p.toList) path.asStr.toList

/-- Whether the query has a condition on the path. -/
def ListFilter.restricts (filter : ListFilter) : Bool :=
  filter.pathPrefix.any fun p => decide (p ≠ "")

/-- `SQLITE_MAX_EXPR_DEPTH`, as the bundled library has it. -/
def sqliteMaxExprDepth : Nat := 1000

/-- How deep SQLite finds `condition AND conjunct`. -/
def andDepth (condition conjunct : Nat) : Nat :=
  max condition conjunct + 1

/-- How deep SQLite finds the `WHERE` clause that `list` assembles. -/
def ListFilter.depth (filter : ListFilter) : Nat :=
  -- `1 = 1`
  let depth := 2
  -- `path = ?n OR substr(path, 1, length(?n) + 1) = ?n || '/'`
  let depth := if filter.restricts then andDepth depth 6 else depth
  -- `current_version IS NOT NULL`
  let depth := if filter.includeEmpty then depth else andDepth depth 2
  -- `EXISTS (SELECT 1 ..)`
  filter.tags.foldl (fun depth _ => andDepth depth 6) depth

/--
Whether SQLite prepares the query of `list`.  The condition inside an `EXISTS`
is six deep with the one of its join, and counts on top of the clause around it.
-/
def ListFilter.prepares (filter : ListFilter) : Bool :=
  decide ((if filter.tags = [] then filter.depth else filter.depth + 6) ≤ sqliteMaxExprDepth)

/-- The most tags of a filter with this prefix and `include_empty`. -/
def ListFilter.mostTags (filter : ListFilter) : Nat :=
  if filter.restricts then if filter.includeEmpty then 987 else 986 else 988

/-- Whether a secret carries a tag. -/
def Store.carries (st : Store) (id : Uuid) (tag : Tag) : Bool :=
  st.tags.rows.any fun t =>
    decide (t.tag = tag) &&
      st.secretTags.rows.any fun r => decide (r.secretId = id ∧ r.tagId = t.id)

/-- The tags of a secret, in order. -/
def Store.tagsOf (st : Store) (id : Uuid) : List Tag :=
  ((st.tags.rows.filter (fun t =>
    st.secretTags.rows.any (fun r => decide (r.secretId = id ∧ r.tagId = t.id)))).map
      TagRow.tag).mergeSort tagLe

/-- The `WHERE` clause of `list`. -/
def ListFilter.selects (filter : ListFilter) (st : Store) (s : SecretRow) : Bool :=
  filter.selectsPath s.path && (filter.includeEmpty || s.currentVersion.isSome) &&
    filter.tags.all (st.carries s.id)

/-- What `list` says about one secret. -/
def summary (st : Store) (s : SecretRow) : Except StoreError SecretSummary := do
  let createdAt ← timestamp s.createdAt
  let updatedAt ← timestamp s.updatedAt
  .ok
    { path := s.path
      currentVersion := s.currentVersion
      versionCount := (st.versionsOf s.id).countP fun r => decide (r.state ≠ .destroyed)
      tags := st.tagsOf s.id
      createdAt, updatedAt }

/-- The order of `ORDER BY path`. -/
def pathLe (a b : SecretRow) : Bool :=
  decide (utf8 a.path.asStr ≤ utf8 b.path.asStr)

/-- `Store::list`. -/
def list (st : Store) (filter : ListFilter) : Except StoreError (List SecretSummary) :=
  if filter.prepares then
    ((st.secrets.rows.filter (filter.selects st)).mergeSort pathLe).mapM (summary st)
  else .error (.sqlite .failure)

/-- The metadata in a row. -/
def versionInfo (r : VersionRow) : Except StoreError VersionInfo := do
  let createdAt ← timestamp r.createdAt
  .ok
    { version := r.version, state := r.state, createdAt, createdBy := r.createdBy
      comment := r.comment }

/-- `Store::versions`: newest first. -/
def versions (st : Store) (path : SecretPath) : Except StoreError (List VersionInfo) := do
  let id ← secretId st path
  ((st.versionsOf id).mergeSort
    (fun a b => decide (b.version.toNat ≤ a.version.toNat))).mapM versionInfo

/-- `Store::secret_count`. -/
def secretCount (st : Store) : Nat :=
  st.secrets.rows.countP fun s => s.currentVersion.isSome

theorem foldl_andDepth
    {depth : Nat}
    (h : 6 ≤ depth) (tags : List Tag) :
    tags.foldl (fun depth _ => andDepth depth 6) depth = depth + tags.length := by
  induction tags generalizing depth with
  | nil =>
      rfl
  | cons tag tags ih =>
      rw [List.foldl_cons, andDepth, ih (by omega), List.length_cons]
      omega

/-- SQLite prepares the query unless it asks for too many tags. -/
theorem ListFilter.prepares_iff
    {filter : ListFilter} :
    filter.prepares = true ↔ filter.tags.length ≤ filter.mostTags := by
  obtain ⟨pathPrefix, tags, includeEmpty⟩ := filter
  rw [ListFilter.prepares, decide_eq_true_iff, ListFilter.depth, ListFilter.mostTags]
  generalize ListFilter.restricts _ = restricts
  dsimp only
  cases tags with
  | nil =>
      cases restricts <;> cases includeEmpty <;> simp [andDepth, sqliteMaxExprDepth]
  | cons tag tags =>
      rw [if_neg (List.cons_ne_nil tag tags), List.foldl_cons,
        foldl_andDepth (by unfold andDepth; omega), List.length_cons]
      cases restricts <;> cases includeEmpty <;>
        simp [andDepth, sqliteMaxExprDepth] <;> omega

theorem ListFilter.length_le_of_untagged
    (pathPrefix : Option String) (includeEmpty : Bool) :
    let filter : ListFilter := ⟨pathPrefix, [], includeEmpty⟩
    filter.tags.length ≤ filter.mostTags :=
  Nat.zero_le _

theorem list_of_prepares
    {st : Store} {filter : ListFilter}
    (h : filter.tags.length ≤ filter.mostTags) :
    list st filter =
      ((st.secrets.rows.filter (filter.selects st)).mergeSort pathLe).mapM (summary st) :=
  if_pos (ListFilter.prepares_iff.mpr h)

theorem list_of_not_prepares
    (st : Store) {filter : ListFilter}
    (h : filter.mostTags < filter.tags.length) :
    list st filter = .error (.sqlite .failure) :=
  if_neg fun hprepares => (ListFilter.prepares_iff.mp hprepares).not_gt h

/-- `Store::tags` finds the tags of the secret at a path. -/
theorem tags_eq_ok
    {st : Store} {path : SecretPath} {s : SecretRow}
    (h : st.secretByPath path = some s) :
    tags st path = .ok (st.tagsOf s.id) := by
  simp [tags, secretId, h, okOr, bind, Except.bind, Store.tagsOf]

theorem tags_eq_error
    {st : Store} {path : SecretPath}
    (h : st.secretByPath path = none) :
    tags st path = .error .notFound := by
  simp [tags, secretId, h, okOr, bind, Except.bind]

theorem Store.mem_tagsOf
    {st : Store} {id : Uuid} {tag : Tag} :
    tag ∈ st.tagsOf id ↔
      ∃ t ∈ st.tags.rows, t.tag = tag ∧
        ∃ r ∈ st.secretTags.rows, r.secretId = id ∧ r.tagId = t.id := by
  simp only [Store.tagsOf, List.mem_mergeSort, List.mem_map, List.mem_filter,
    List.any_eq_true, decide_eq_true_eq]
  constructor
  · rintro ⟨t, ⟨ht, hr⟩, rfl⟩
    exact ⟨t, ht, rfl, hr⟩
  · rintro ⟨t, ht, rfl, hr⟩
    exact ⟨t, ⟨ht, hr⟩, rfl⟩

theorem Store.carries_iff
    {st : Store} {id : Uuid} {tag : Tag} :
    st.carries id tag = true ↔ tag ∈ st.tagsOf id := by
  simp [Store.carries, Store.mem_tagsOf]

end Storage
end Secretbae
