import Secretbae.Policy.Policy
import Secretbae.Proto.Text

/-!
# What a path pattern matches

`Glob.matches` is the matcher on strings.  Its meaning is an existence
statement: the segments of the path are cut into blocks, one for each segment
of the pattern (`Glob.matches_iff_partition`).

A pattern is stored when `is_valid_pattern` accepts it, a path when
`SecretPath::new` does, and only the second of them has limits on the number of
segments, their lengths and the whole length.  A path needs one segment for
each segment of the pattern other than `**`, at least as long as it, so a
stored pattern can be matched exactly when it stays within the limits once its
`**` segments are dropped (`PathPattern.matchable_iff`).
-/

namespace Secretbae
namespace Policies

open Lib Proto

section Partition

/-- `glob::matches`. -/
def Glob.matches (pattern path : String) : Bool :=
  globMatches ((pathSegments pattern).map pieceOf) (pathSegments path)

/-- `glob::matches` without the early return on an all-false table. -/
def Glob.matchesToTheEnd (pattern path : String) : Bool :=
  let segments := pathSegments path
  advanceEach segments (true :: List.replicate segments.length false)
    ((pathSegments pattern).map pieceOf)

/-- The block of path segments that a segment of the pattern takes. -/
def Glob.Takes (segment : Bytes) (block : List Bytes) : Prop :=
  if segment = [42, 42] then True
  else if segment = [42] then ∃ one, block = [one]
  else block = [segment]

theorem Glob.takes_iff
    {segment : Bytes} {block : List Bytes} :
    Glob.Takes segment block ↔ block ∈ (pieceOf segment).language := by
  unfold Glob.Takes pieceOf
  split
  · exact iff_of_true trivial (Set.mem_univ _)
  split
  · rfl
  · rfl

/-- A stored pattern matches as its text does. -/
theorem PathPattern.matches_eq
    (pattern : PathPattern) (path : SecretPath) :
    pattern.matches path = Glob.matches pattern.asStr path.asStr := by
  rfl

theorem Glob.matches_iff_blocks
    {pattern path : String} :
    Glob.matches pattern path = true ↔
      ∃ blocks : List (List Bytes), blocks.flatten = pathSegments path ∧
        List.Forall₂ Glob.Takes (pathSegments pattern) blocks := by
  have htakes :
      Glob.Takes = fun segment block => block ∈ (pieceOf segment).language := by
    funext segment block
    exact propext Glob.takes_iff
  rw [Glob.matches, globMatches_iff, mem_patternLanguage_iff_blocks, htakes]
  simp only [List.forall₂_map_left_iff]

/--
The matcher agrees with the cutting of the path into blocks, and the early
return never changes its answer.
-/
theorem Glob.matches_iff_partition
    (pattern path : String) :
    (Glob.matches pattern path = true ↔
      ∃ blocks : List (List Bytes), blocks.flatten = pathSegments path ∧
        List.Forall₂ Glob.Takes (pathSegments pattern) blocks) ∧
    Glob.matches pattern path = Glob.matchesToTheEnd pattern path := by
  refine ⟨Glob.matches_iff_blocks, ?_⟩
  rw [Glob.matches, globMatches, Glob.matchesToTheEnd]
  exact advanceAll_eq_advanceEach (by simp) _

example : Glob.matches "prod/**/db" "prod/db" = true := by decide

end Partition

section Matchable

/-- The segments of a pattern that each take one segment of the path. -/
def Glob.fixedSegments (pattern : String) : List Bytes :=
  (pathSegments pattern).filter (fun segment => decide (segment ≠ [42, 42]))

/-- The shortest segment that a `*` or a literal takes. -/
def Glob.fill (segment : Bytes) : Bytes :=
  if segment = [42] then [97] else segment

theorem Glob.fill_length
    (segment : Bytes) :
    (Glob.fill segment).length = segment.length := by
  unfold Glob.fill
  split
  · rename_i h
    rw [h]
    rfl
  · rfl

/-- A segment that is not `**` takes one that is no shorter. -/
theorem Glob.takes_of_ne
    {segment : Bytes} {block : List Bytes}
    (hne : segment ≠ [42, 42])
    (htakes : Glob.Takes segment block)
    (hnil : ∀ s ∈ block, s ≠ []) :
    ∃ s, block = [s] ∧ segment.length ≤ s.length := by
  rw [Glob.Takes, if_neg hne] at htakes
  split at htakes
  · rename_i hstar
    obtain ⟨s, rfl⟩ := htakes
    refine ⟨s, rfl, ?_⟩
    rw [hstar]
    exact List.length_pos_iff.mpr (hnil s (by simp))
  · exact ⟨segment, htakes, le_rfl⟩

theorem Glob.takes_fill
    {segment : Bytes}
    (hne : segment ≠ [42, 42]) :
    Glob.Takes segment [Glob.fill segment] := by
  rw [Glob.Takes, if_neg hne]
  split
  · exact ⟨_, rfl⟩
  · rename_i hstar
    rw [Glob.fill, if_neg hstar]

/-- A matching path has a segment for each fixed one, in order and no shorter. -/
theorem Glob.exists_sublist
    {segments : List Bytes} {blocks : List (List Bytes)}
    (hblocks : List.Forall₂ Glob.Takes segments blocks)
    (hnil : ∀ s ∈ blocks.flatten, s ≠ []) :
    ∃ taken, taken.Sublist blocks.flatten ∧
      List.Forall₂ (fun s t => s.length ≤ t.length)
        (segments.filter (fun segment => decide (segment ≠ [42, 42]))) taken := by
  induction hblocks with
  | nil =>
      exact ⟨[], .slnil, .nil⟩
  | @cons segment block segments blocks htakes _ ih =>
      simp only [List.flatten_cons, List.mem_append] at hnil
      obtain ⟨taken, hsub, hlengths⟩ := ih (fun s hs => hnil s (.inr hs))
      by_cases hmany : segment = [42, 42]
      · refine ⟨taken, hsub.trans (List.sublist_append_right _ _), ?_⟩
        rwa [List.filter_cons_of_neg (by simp [hmany])]
      · obtain ⟨s, rfl, hle⟩ :=
          Glob.takes_of_ne hmany htakes (fun s hs => hnil s (.inl hs))
        refine ⟨s :: taken, hsub.cons_cons s, ?_⟩
        rw [List.filter_cons_of_pos (by simp [hmany])]
        exact .cons hle hlengths

/-- The fixed segments, filled in, match with nothing for a `**`. -/
theorem Glob.exists_blocks
    (segments : List Bytes) :
    ∃ blocks : List (List Bytes),
      blocks.flatten =
          (segments.filter (fun segment => decide (segment ≠ [42, 42]))).map Glob.fill ∧
        List.Forall₂ Glob.Takes segments blocks := by
  induction segments with
  | nil =>
      exact ⟨[], rfl, .nil⟩
  | cons segment segments ih =>
      obtain ⟨blocks, hflat, hblocks⟩ := ih
      by_cases hmany : segment = [42, 42]
      · refine ⟨[] :: blocks, ?_, .cons ?_ hblocks⟩
        · rw [List.filter_cons_of_neg (by simp [hmany])]
          exact hflat
        · rw [Glob.Takes, if_pos hmany]
          trivial
      · refine ⟨[Glob.fill segment] :: blocks, ?_, .cons (Glob.takes_fill hmany) hblocks⟩
        rw [List.filter_cons_of_pos (by simp [hmany]), List.map_cons, List.flatten_cons, hflat]
        rfl

/-- A pattern of `**` only takes everything with the first of them. -/
theorem Glob.exists_blocks_of_many
    {segments : List Bytes}
    (hne : segments ≠ [])
    (hmany : segments.filter (fun segment => decide (segment ≠ [42, 42])) = [])
    (word : List Bytes) :
    ∃ blocks : List (List Bytes), blocks.flatten = word ∧
      List.Forall₂ Glob.Takes segments blocks := by
  cases segments with
  | nil =>
      exact absurd rfl hne
  | cons segment segments =>
      rw [List.filter_eq_nil_iff] at hmany
      have hfirst : segment = [42, 42] := by simpa using hmany segment (by simp)
      obtain ⟨blocks, hflat, hblocks⟩ := Glob.exists_blocks segments
      have hrest : segments.filter (fun segment => decide (segment ≠ [42, 42])) = [] :=
        List.filter_eq_nil_iff.mpr (fun s hs => hmany s (List.mem_cons_of_mem _ hs))
      refine ⟨word :: blocks, ?_, .cons ?_ hblocks⟩
      · rw [List.flatten_cons, hflat, hrest, List.map_nil, List.append_nil]
      · rw [Glob.Takes, if_pos hfirst]
        trivial

/-- The limits that `SecretPath::new` puts on segments. -/
structure Glob.WithinLimits (segments : List Bytes) : Prop where
  count : segments.length ≤ maxSegments
  each : ∀ segment ∈ segments, segment.length ≤ maxSegmentLen
  total : ([47].intercalate segments).length ≤ maxPathLen

theorem SecretPath.withinLimits
    (path : SecretPath) :
    Glob.WithinLimits (pathSegments path.asStr) := by
  obtain ⟨htotal, hcount, hvalid⟩ := checkPath_eq_ok_iff.mp path.valid
  refine ⟨hcount, fun segment hsegment => (hvalid segment hsegment).length_le, ?_⟩
  rw [pathSegments, List.intercalate_splitOn]
  exact htotal

/-- Fewer and shorter segments stay within the limits. -/
theorem Glob.WithinLimits.of_shorter
    {segments taken all : List Bytes}
    (hall : Glob.WithinLimits all)
    (hsub : taken.Sublist all)
    (hlengths : List.Forall₂ (fun s t => s.length ≤ t.length) segments taken) :
    Glob.WithinLimits segments := by
  have hcount : segments.length ≤ all.length :=
    hlengths.length_eq.trans_le hsub.length_le
  refine ⟨hcount.trans hall.count, ?_, ?_⟩
  · intro segment hsegment
    obtain ⟨t, ht, hle⟩ := forall₂_mem_left hlengths hsegment
    exact hle.trans (hall.each t (hsub.subset ht))
  · by_cases hne : segments = []
    · rw [hne]
      exact Nat.zero_le _
    have hallne : all ≠ [] := by
      rintro rfl
      exact hne (List.length_eq_zero_iff.mp (Nat.le_zero.mp hcount))
    have hsum :
        (segments.map (fun s => s.length + 1)).sum ≤ (all.map (fun s => s.length + 1)).sum := by
      calc (segments.map (fun s => s.length + 1)).sum
          ≤ (taken.map (fun s => s.length + 1)).sum := by
            clear hsub hcount hne
            induction hlengths with
            | nil => rfl
            | cons hle _ ih =>
                simp only [List.map_cons, List.sum_cons]
                omega
        _ ≤ (all.map (fun s => s.length + 1)).sum :=
            (hsub.map _).sum_le_sum (fun _ _ => Nat.zero_le _)
    rw [← length_intercalate 47 hne, ← length_intercalate 47 hallne] at hsum
    have := hall.total
    omega

/-- What `is_valid_pattern` asks of a segment. -/
theorem PathPattern.segment_cases
    (pattern : PathPattern) {segment : Bytes}
    (hsegment : segment ∈ pathSegments pattern.asStr) :
    segment = [42] ∨ segment = [42, 42] ∨
      (segment ≠ [] ∧ segment ≠ [46] ∧ segment ≠ [46, 46] ∧
        ∀ b ∈ segment, isNameByte b = true) := by
  have hvalid := pattern.valid
  simp only [isValidPattern, Bool.and_eq_true, List.all_eq_true, Bool.or_eq_true,
    decide_eq_true_eq] at hvalid
  rcases hvalid.2 segment hsegment with (hone | hmany) | ⟨⟨⟨hnil, hdot⟩, hdots⟩, hbytes⟩
  · exact .inl hone
  · exact .inr (.inl hmany)
  · exact .inr (.inr ⟨hnil, hdot, hdots, hbytes⟩)

/-- A fixed segment of a stored pattern, filled in, may stand in a path. -/
theorem PathPattern.fill_valid
    (pattern : PathPattern) {segment : Bytes}
    (hsegment : segment ∈ Glob.fixedSegments pattern.asStr)
    (hlength : segment.length ≤ maxSegmentLen) :
    ValidSegment (Glob.fill segment) := by
  obtain ⟨hmem, hmany⟩ := List.mem_filter.mp hsegment
  rcases pattern.segment_cases hmem with rfl | rfl | ⟨hnil, hdot, hdots, hbytes⟩
  · exact ⟨by decide, by decide, by decide, by decide, List.all_eq_true.mp (by decide)⟩
  · cases hmany
  · have hstar : segment ≠ [42] := by
      rintro rfl
      have := hbytes 42 (by simp)
      revert this
      decide
    rw [Glob.fill, if_neg hstar]
    exact ⟨hnil, hlength, hdot, hdots, hbytes⟩

/-- The limits on a pattern that some path matches. -/
theorem PathPattern.withinLimits_of_matches
    {pattern : PathPattern} {path : SecretPath}
    (h : pattern.matches path = true) :
    Glob.WithinLimits (Glob.fixedSegments pattern.asStr) := by
  rw [PathPattern.matches_eq] at h
  obtain ⟨blocks, hflat, hblocks⟩ := Glob.matches_iff_blocks.mp h
  obtain ⟨taken, hsub, hlengths⟩ := Glob.exists_sublist hblocks (by
    rw [hflat]
    exact fun s hs => (path.validSegment s hs).ne_nil)
  rw [hflat] at hsub
  exact (SecretPath.withinLimits path).of_shorter hsub hlengths

/-- Within the limits, the filled-in pattern is such a path. -/
theorem PathPattern.exists_matches
    {pattern : PathPattern}
    (h : Glob.WithinLimits (Glob.fixedSegments pattern.asStr)) :
    ∃ path : SecretPath, pattern.matches path = true := by
  by_cases hfixed : Glob.fixedSegments pattern.asStr = []
  · have hvalid : ValidSegment [97] :=
      ⟨by decide, by decide, by decide, by decide, List.all_eq_true.mp (by decide)⟩
    obtain ⟨path, hpath⟩ :=
      SecretPath.exists_of_segments [[97]] (by simp) (by simpa using hvalid)
        (by decide) (by decide)
    obtain ⟨blocks, hflat, hblocks⟩ :=
      Glob.exists_blocks_of_many (List.splitOn_ne_nil 47 _) hfixed [[97]]
    exact ⟨path, Glob.matches_iff_blocks.mpr ⟨blocks, hflat.trans hpath.symm, hblocks⟩⟩
  · have hlengths :
        ([47].intercalate ((Glob.fixedSegments pattern.asStr).map Glob.fill)).length =
          ([47].intercalate (Glob.fixedSegments pattern.asStr)).length := by
      apply Nat.add_right_cancel (m := 1)
      rw [length_intercalate 47 (by simpa using hfixed), length_intercalate 47 hfixed,
        List.map_map]
      simp [Function.comp_def, Glob.fill_length]
    obtain ⟨path, hpath⟩ :=
      SecretPath.exists_of_segments ((Glob.fixedSegments pattern.asStr).map Glob.fill)
        (by simpa using hfixed)
        (by
          intro segment hsegment
          obtain ⟨s, hs, rfl⟩ := List.mem_map.mp hsegment
          exact pattern.fill_valid hs (h.each s hs))
        (by simpa using h.count)
        (hlengths.trans_le h.total)
    obtain ⟨blocks, hflat, hblocks⟩ := Glob.exists_blocks (pathSegments pattern.asStr)
    exact ⟨path, Glob.matches_iff_blocks.mpr ⟨blocks, hflat.trans hpath.symm, hblocks⟩⟩

/--
A stored pattern matches some path exactly when it is within the limits of a
path once its `**` segments are dropped.
-/
theorem PathPattern.matchable_iff
    (pattern : PathPattern) :
    (∃ path : SecretPath, pattern.matches path = true) ↔
      Glob.WithinLimits (Glob.fixedSegments pattern.asStr) := by
  constructor
  · rintro ⟨path, hpath⟩
    exact PathPattern.withinLimits_of_matches hpath
  · exact PathPattern.exists_matches

/-- A literal of 65 letters. -/
def longLiteral : String :=
  String.ofList (List.replicate 65 'a')

/-- The literal may be stored and matches no path. -/
theorem longLiteral_unmatchable :
    ∃ pattern, PathPattern.new longLiteral = .ok pattern ∧
      ¬ ∃ path : SecretPath, pattern.matches path = true := by
  have hvalid : isValidPattern longLiteral = true := by decide +kernel
  refine ⟨⟨longLiteral, hvalid⟩, dif_pos hvalid, ?_⟩
  rintro ⟨path, hpath⟩
  have hmem :
      List.replicate 65 97 ∈ Glob.fixedSegments longLiteral := by
    decide +kernel
  have hshort := (PathPattern.withinLimits_of_matches hpath).each _ hmem
  revert hshort
  decide

end Matchable

end Policies
end Secretbae
