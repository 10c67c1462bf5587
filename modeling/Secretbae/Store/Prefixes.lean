import Secretbae.Store.Lifecycle
import Secretbae.Store.Listing
import Secretbae.Proto.Text

/-!
# The two prefix tests

`Store::list` and `SecretPath::starts_with_prefix` both ask whether a path is a
prefix or continues it at a `/`, and both forgive a trailing slash of the
prefix.  The listing trims all of them and skips the test for a prefix that was
empty before trimming; the method strips one and skips the test for a prefix
that is empty after it.  `listSelects_eq_startsWithPrefix_iff` says where they
part.
-/

namespace Secretbae
namespace Storage

open Lib Proto Core

section Tests

/-- `str::strip_suffix('/')`, or the text itself. -/
def stripSlash (s : List Char) : List Char :=
  if s.getLast? = some '/' then s.dropLast else s

/-- `SecretPath::starts_with_prefix`. -/
def startsWithPrefix (path : SecretPath) (pathPrefix : String) : Bool :=
  let stripped := stripSlash pathPrefix.toList
  if stripped = [] then true
  else
    match stripPrefix stripped path.asStr.toList with
    | none => false
    | some rest => decide (rest = [] ∨ rest.head? = some '/')

/-- A path is the text `bound` or continues it at a `/`. -/
def Continues (bound path : List Char) : Prop :=
  path = bound ∨ ∃ rest, path = bound ++ '/' :: rest

theorem underPrefix_iff
    {bound path : List Char} :
    underPrefix bound path = true ↔ Continues bound path := by
  unfold underPrefix Continues
  rw [decide_eq_true_eq]
  refine or_congr_right ?_
  constructor
  · intro h
    refine ⟨path.drop (bound.length + 1), ?_⟩
    conv_lhs => rw [← List.take_append_drop (bound.length + 1) path, h]
    simp
  · rintro ⟨rest, rfl⟩
    rw [← List.singleton_append, ← List.append_assoc]
    exact List.take_left' (by simp)

/-- What the method tests once the slash is off. -/
theorem startsWithPrefix_iff
    {path : SecretPath} {pathPrefix : String}
    (hne : stripSlash pathPrefix.toList ≠ []) :
    startsWithPrefix path pathPrefix = true ↔
      Continues (stripSlash pathPrefix.toList) path.asStr.toList := by
  simp only [startsWithPrefix, if_neg hne]
  constructor
  · intro h
    split at h
    · cases h
    rename_i rest hstrip
    have htext := stripPrefix_eq_some_iff.mp hstrip
    rcases of_decide_eq_true h with rfl | hhead
    · exact .inl (by simpa using htext)
    · cases rest with
      | nil => cases hhead
      | cons c rest =>
          cases hhead
          exact .inr ⟨rest, htext⟩
  · rintro (heq | ⟨rest, heq⟩)
    · have hstrip :
          stripPrefix (stripSlash pathPrefix.toList) path.asStr.toList = some [] :=
        stripPrefix_eq_some_iff.mpr (by simpa using heq)
      rw [hstrip]
      rfl
    · rw [stripPrefix_eq_some_iff.mpr heq]
      simp

end Tests

section Slashes

/-- A text is what trimming leaves and a block of slashes. -/
theorem eq_trimSlashes_append
    (s : List Char) :
    ∃ n, s = trimSlashes s ++ List.replicate n '/' ∧ (trimSlashes s).getLast? ≠ some '/' := by
  induction s using List.reverseRecOn with
  | nil =>
      exact ⟨0, rfl, by simp [trimSlashes]⟩
  | append_singleton s c ih =>
      by_cases hc : c = '/'
      · obtain ⟨n, hs, hlast⟩ := ih
        have htrim : trimSlashes (s ++ [c]) = trimSlashes s := by
          simp [trimSlashes, hc]
        rw [htrim]
        refine ⟨n + 1, ?_, hlast⟩
        rw [List.replicate_succ', ← List.append_assoc, ← hs, hc]
      · have htrim : trimSlashes (s ++ [c]) = s ++ [c] := by
          simp [trimSlashes, hc]
        rw [htrim]
        refine ⟨0, by simp, ?_⟩
        simp [hc]

theorem stripSlash_append_replicate
    (base : List Char) (n : Nat) :
    stripSlash (base ++ List.replicate (n + 1) '/') = base ++ List.replicate n '/' := by
  rw [List.replicate_succ', ← List.append_assoc, stripSlash]
  simp

theorem stripSlash_of_getLast?
    {s : List Char}
    (h : s.getLast? ≠ some '/') :
    stripSlash s = s := by
  rw [stripSlash, if_neg h]

/-- Two slashes end a text exactly when the block has two or more. -/
theorem isSuffix_slashes_iff
    {base : List Char} {n : Nat}
    (hlast : base.getLast? ≠ some '/') :
    ['/', '/'] <:+ base ++ List.replicate n '/' ↔ 2 ≤ n := by
  constructor
  · rintro ⟨front, hfront⟩
    by_contra hlt
    match n, hlt with
    | 0, _ =>
        rw [List.replicate_zero, List.append_nil] at hfront
        rw [← hfront] at hlast
        simp at hlast
    | 1, _ =>
        have hcut : (front ++ ['/']) ++ ['/'] = base ++ ['/'] := by
          simpa using hfront
        obtain ⟨hbase, -⟩ := List.append_inj' hcut rfl
        rw [← hbase] at hlast
        simp at hlast
    | n + 2, hlt =>
        omega
  · intro hn
    obtain ⟨k, rfl⟩ := Nat.exists_eq_add_of_le hn
    refine ⟨base ++ List.replicate k '/', ?_⟩
    rw [List.append_assoc, Nat.add_comm, List.replicate_add]
    rfl

end Slashes

section Paths

theorem utf8_slash
    (a b : List Char) :
    utf8 (String.ofList (a ++ '/' :: b)) =
      utf8 (String.ofList a) ++ 47 :: utf8 (String.ofList b) := by
  rw [String.ofList_append, utf8_append, utf8_ofList_cons, utf8EncodeChar_ascii (by decide)]
  rfl

/-- A slash in a path has a nonempty segment on both sides. -/
theorem slash_between_segments
    {path : SecretPath} {a b : List Char}
    (h : path.asStr.toList = a ++ '/' :: b) :
    a ≠ [] ∧ b ≠ [] ∧ b.head? ≠ some '/' := by
  have hsegments :
      pathSegments path.asStr =
        (utf8 (String.ofList a)).splitOn 47 ++ (utf8 (String.ofList b)).splitOn 47 := by
    rw [pathSegments, ← String.ofList_toList (s := path.asStr), h, utf8_slash,
      List.splitOn_append_cons_self]
  have hempty : [] ∉ pathSegments path.asStr := by
    intro hmem
    exact (path.validSegment [] hmem).ne_nil rfl
  rw [hsegments, List.mem_append, not_or] at hempty
  have hnil : ([] : Bytes) ∈ (utf8 (String.ofList [])).splitOn 47 := by
    exact List.mem_singleton_self _
  refine ⟨?_, ?_, ?_⟩
  · rintro rfl
    exact hempty.1 hnil
  · rintro rfl
    exact hempty.2 hnil
  · intro hhead
    cases b with
    | nil =>
        cases hhead
    | cons c b =>
        cases hhead
        refine hempty.2 ?_
        have hsplit := utf8_slash [] b
        rw [List.nil_append] at hsplit
        rw [hsplit, List.splitOn_append_cons_self]
        exact List.mem_append_left _ hnil

/-- No path continues the empty text, or a text that ends in a slash. -/
theorem not_continues_nil
    (path : SecretPath) :
    ¬ Continues [] path.asStr.toList := by
  rintro (heq | ⟨rest, heq⟩)
  · have hvalid := (path.validSegment [] (by
      rw [pathSegments, ← String.ofList_toList (s := path.asStr), heq]
      exact List.mem_singleton_self _)).ne_nil
    exact hvalid rfl
  · exact (slash_between_segments heq).1 rfl

theorem not_continues_slash
    (path : SecretPath) (base : List Char) :
    ¬ Continues (base ++ ['/']) path.asStr.toList := by
  rintro (heq | ⟨rest, heq⟩)
  · exact (slash_between_segments heq).2.1 rfl
  · rw [List.append_assoc] at heq
    exact (slash_between_segments heq).2.2 rfl

/-- The condition that a prefix alone puts on the path in a listing. -/
def listSelects (pathPrefix : String) (path : SecretPath) : Bool :=
  ListFilter.selectsPath ⟨some pathPrefix, [], true⟩ path

theorem ListFilter.selectsPath_iff
    {filter : ListFilter} {path : SecretPath} :
    filter.selectsPath path = true ↔
      ∀ p, filter.pathPrefix = some p → p ≠ "" →
        Continues (trimSlashes p.toList) path.asStr.toList := by
  unfold ListFilter.selectsPath
  cases filter.pathPrefix with
  | none => simp
  | some p =>
      simp only [Bool.or_eq_true, decide_eq_true_eq, underPrefix_iff, Option.some.injEq,
        forall_eq']
      exact or_iff_not_imp_left

theorem listSelects_iff
    {pathPrefix : String} {path : SecretPath}
    (hne : pathPrefix.toList ≠ []) :
    listSelects pathPrefix path = true ↔
      Continues (trimSlashes pathPrefix.toList) path.asStr.toList := by
  have hempty : pathPrefix ≠ "" := by
    rintro rfl
    exact hne rfl
  rw [listSelects, ListFilter.selectsPath_iff]
  simp [hempty]

/-- With at most one slash after it, a nonempty text is tested alike. -/
theorem listSelects_eq_of_stripSlash
    {pathPrefix : String} {path : SecretPath}
    (hstrip : stripSlash pathPrefix.toList = trimSlashes pathPrefix.toList)
    (hne : trimSlashes pathPrefix.toList ≠ []) :
    listSelects pathPrefix path = startsWithPrefix path pathPrefix := by
  have hpre : pathPrefix.toList ≠ [] := by
    intro hnil
    rw [hnil] at hne
    exact hne rfl
  rw [Bool.eq_iff_iff, listSelects_iff hpre, startsWithPrefix_iff (hstrip ▸ hne), hstrip]

/--
The two tests agree on a prefix and a path unless the prefix is a single slash,
or it ends in two slashes and the path is at or below what is before them.
-/
theorem listSelects_eq_startsWithPrefix_iff
    (pathPrefix : String) (path : SecretPath) :
    listSelects pathPrefix path = startsWithPrefix path pathPrefix ↔
      pathPrefix ≠ "/" ∧
        (['/', '/'] <:+ pathPrefix.toList →
          ¬ Continues (trimSlashes pathPrefix.toList) path.asStr.toList) := by
  obtain ⟨n, hs, hlast⟩ := eq_trimSlashes_append pathPrefix.toList
  have hsuffix := isSuffix_slashes_iff (n := n) hlast
  rw [← hs] at hsuffix
  rw [hsuffix]
  -- the two differ in how many of the `n` slashes they take off
  match n, hs with
  | 0, hs =>
      rw [List.replicate_zero, List.append_nil] at hs
      refine iff_of_true ?_ ⟨?_, fun h => by omega⟩
      · by_cases hempty : trimSlashes pathPrefix.toList = []
        · have hnil : pathPrefix = "" := String.toList_eq_nil_iff.mp (hs.trans hempty)
          subst hnil
          rfl
        · refine listSelects_eq_of_stripSlash ?_ hempty
          rw [stripSlash_of_getLast? (hs ▸ hlast)]
          exact hs
      · rintro rfl
        exact hlast (congrArg List.getLast? hs.symm)
  | 1, hs =>
      have hstrip : stripSlash pathPrefix.toList = trimSlashes pathPrefix.toList := by
        conv_lhs => rw [hs, stripSlash_append_replicate _ 0, List.replicate_zero, List.append_nil]
      by_cases hempty : trimSlashes pathPrefix.toList = []
      · rw [hempty, List.nil_append] at hs
        have hslash : pathPrefix = "/" := String.toList_inj.mp hs
        refine iff_of_false ?_ (fun h => h.1 hslash)
        have hlist : listSelects pathPrefix path = false := by
          rw [Bool.eq_false_iff, ne_eq, listSelects_iff (by simp [hs]), hempty]
          exact not_continues_nil path
        have hstarts : startsWithPrefix path pathPrefix = true := by
          simp [startsWithPrefix, hstrip, hempty]
        rw [hlist, hstarts]
        exact Bool.false_ne_true
      · refine iff_of_true (listSelects_eq_of_stripSlash hstrip hempty) ⟨?_, fun h => by omega⟩
        rintro rfl
        exact hempty rfl
  | n + 2, hs =>
      have hpre : pathPrefix.toList ≠ [] := by
        rw [hs]
        simp
      have hstrip :
          stripSlash pathPrefix.toList =
            (trimSlashes pathPrefix.toList ++ List.replicate n '/') ++ ['/'] := by
        conv_lhs => rw [hs, stripSlash_append_replicate, List.replicate_succ']
        rw [List.append_assoc]
      have hstarts : startsWithPrefix path pathPrefix = false := by
        rw [Bool.eq_false_iff, ne_eq, startsWithPrefix_iff (by rw [hstrip]; simp), hstrip]
        exact not_continues_slash path _
      have hslash : pathPrefix ≠ "/" := by
        rintro rfl
        have hlen := congrArg List.length hs
        simp at hlen
        omega
      rw [hstarts, Bool.eq_false_iff, ne_eq, listSelects_iff hpre]
      exact ⟨fun h => ⟨hslash, fun _ => h⟩, fun h => h.2 (by omega)⟩

/-- A prefix with a doubled slash lists what the method says is not below it. -/
theorem prefix_tests_differ :
    listSelects "prod//" samplePath = true ∧ startsWithPrefix samplePath "prod//" = false := by
  decide

end Paths

end Storage
end Secretbae
