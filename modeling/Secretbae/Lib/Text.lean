import Mathlib.Data.List.DropRight
import Secretbae.Lib.Bytes

/-!
# Taking strings apart

The standard library's `trim`, `strip_prefix`, `split_once`, `rsplit_once` and
`splitn`, on lists of characters, with what each of them finds; and the bytes of
a text, which are its own UTF-8 and nothing else's.
-/

namespace Secretbae
namespace Lib

section Text

/-- Unicode's `White_Space`, which `str::trim` removes. -/
def isWhiteSpace (c : Char) : Bool :=
  let n := c.toNat
  (decide (9 ≤ n) && decide (n ≤ 13)) || n == 32 || n == 133 || n == 160 || n == 5760 ||
    (decide (8192 ≤ n) && decide (n ≤ 8202)) || n == 8232 || n == 8233 || n == 8239 ||
    n == 8287 || n == 12288

/-- `str::trim`. -/
def trim (s : List Char) : List Char :=
  ((s.dropWhile isWhiteSpace).reverse.dropWhile isWhiteSpace).reverse

theorem dropWhile_append_left
    {p : Char → Bool} {blank text : List Char}
    (hblank : ∀ c ∈ blank, p c = true)
    (htext : ∀ c ∈ text.head?, p c = false) :
    (blank ++ text).dropWhile p = text := by
  rw [List.dropWhile_append_of_pos hblank]
  cases text with
  | nil =>
      rfl
  | cons c text =>
      rw [List.dropWhile_cons_of_neg]
      simp [htext c rfl]

/-- White space around a text that has none at its ends is all that is removed. -/
theorem trim_append
    {before text after : List Char}
    (hbefore : ∀ c ∈ before, isWhiteSpace c = true)
    (hafter : ∀ c ∈ after, isWhiteSpace c = true)
    (hne : text ≠ [])
    (hhead : ∀ c ∈ text.head?, isWhiteSpace c = false)
    (hlast : ∀ c ∈ text.getLast?, isWhiteSpace c = false) :
    trim (before ++ (text ++ after)) = text := by
  have hfirst : ∀ c ∈ (text ++ after).head?, isWhiteSpace c = false := by
    rw [List.head?_append_of_ne_nil _ hne]
    exact hhead
  unfold trim
  rw [dropWhile_append_left hbefore hfirst, List.reverse_append,
    dropWhile_append_left (by simpa using hafter) (by simpa using hlast), List.reverse_reverse]

/-- A text with no white space at its ends. -/
theorem trim_eq_self
    {text : List Char}
    (hne : text ≠ [])
    (hhead : ∀ c ∈ text.head?, isWhiteSpace c = false)
    (hlast : ∀ c ∈ text.getLast?, isWhiteSpace c = false) :
    trim text = text := by
  have hnil : ∀ c ∈ ([] : List Char), isWhiteSpace c = true := fun _ h => nomatch h
  simpa using trim_append hnil hnil hne hhead hlast

theorem trim_trim
    (s : List Char) :
    trim (trim s) = trim s := by
  unfold trim
  generalize hfront : s.dropWhile isWhiteSpace = front
  generalize hback : front.reverse.dropWhile isWhiteSpace = back
  have hidem : back.dropWhile isWhiteSpace = back := by
    rw [← hback, List.dropWhile_idempotent]
  have hhead : back.reverse.dropWhile isWhiteSpace = back.reverse := by
    have hprefix : back.reverse <+: front := by
      rw [← List.reverse_suffix, List.reverse_reverse, ← hback]
      exact List.dropWhile_suffix _
    cases hb : back.reverse with
    | nil =>
        rfl
    | cons c rest =>
        -- what is left starts where the first cut stopped
        obtain ⟨after, hafter⟩ := hb ▸ hprefix
        have hfirst := List.head?_dropWhile_not isWhiteSpace s
        rw [hfront, ← hafter] at hfirst
        exact List.dropWhile_cons_of_neg (by simpa using hfirst)
  rw [hhead, List.reverse_reverse, hidem]

/-- `str::strip_prefix`. -/
def stripPrefix : List Char → List Char → Option (List Char)
  | [], s => some s
  | _ :: _, [] => none
  | p :: ps, c :: s => if p = c then stripPrefix ps s else none

theorem stripPrefix_eq_some_iff
    {p s rest : List Char} :
    stripPrefix p s = some rest ↔ s = p ++ rest := by
  induction p generalizing s with
  | nil =>
      simp [stripPrefix]
  | cons a ps ih =>
      cases s with
      | nil =>
          simp [stripPrefix]
      | cons c s =>
          simp only [stripPrefix, List.cons_append, List.cons.injEq]
          split
          · rename_i h
            rw [ih]
            constructor
            · intro hs
              exact ⟨h.symm, hs⟩
            · rintro ⟨-, hs⟩
              exact hs
          · rename_i h
            constructor
            · intro hnone
              cases hnone
            · rintro ⟨hc, -⟩
              exact absurd hc.symm h

/-- `str::split_once`: cut at the first `c`. -/
def splitOnce (c : Char) : List Char → Option (List Char × List Char)
  | [] => none
  | a :: s =>
      if a = c then some ([], s)
      else (splitOnce c s).map fun (before, after) => (a :: before, after)

theorem splitOnce_eq_some_iff
    {c : Char} {s before after : List Char} :
    splitOnce c s = some (before, after) ↔ s = before ++ c :: after ∧ c ∉ before := by
  induction s generalizing before with
  | nil =>
      simp [splitOnce]
  | cons a s ih =>
      simp only [splitOnce]
      split
      · rename_i h
        subst h
        cases before with
        | nil =>
            simp
        | cons b before =>
            simp only [Option.some.injEq, Prod.mk.injEq, List.cons_append, List.cons.injEq,
              List.mem_cons, not_or]
            constructor
            · rintro ⟨h, -⟩
              cases h
            · rintro ⟨⟨rfl, -⟩, h, -⟩
              exact absurd rfl h
      · rename_i h
        rw [Option.map_eq_some_iff]
        cases before with
        | nil =>
            simp [h]
        | cons b before =>
            constructor
            · rintro ⟨⟨x, y⟩, hsplit, heq⟩
              cases heq
              obtain ⟨hs, hmem⟩ := ih.mp hsplit
              refine ⟨by rw [hs]; rfl, ?_⟩
              simp [hmem, Ne.symm h]
            · rintro ⟨hs, hmem⟩
              simp only [List.cons_append, List.cons.injEq] at hs
              obtain ⟨rfl, hs⟩ := hs
              have hrest : c ∉ before := fun hc => hmem (List.mem_cons_of_mem _ hc)
              exact ⟨(before, after), ih.mpr ⟨hs, hrest⟩, rfl⟩

/-- `str::rsplit_once`: cut at the last `c`. -/
def rsplitOnce (c : Char) (s : List Char) : Option (List Char × List Char) :=
  (splitOnce c s.reverse).map fun (after, before) => (before.reverse, after.reverse)

theorem rsplitOnce_eq_some_iff
    {c : Char} {s before after : List Char} :
    rsplitOnce c s = some (before, after) ↔ s = before ++ c :: after ∧ c ∉ after := by
  unfold rsplitOnce
  rw [Option.map_eq_some_iff]
  constructor
  · rintro ⟨⟨a, b⟩, hsplit, heq⟩
    cases heq
    obtain ⟨hs, hmem⟩ := splitOnce_eq_some_iff.mp hsplit
    refine ⟨?_, by simpa using hmem⟩
    have hreverse := congrArg List.reverse hs
    simpa using hreverse
  · rintro ⟨rfl, hmem⟩
    refine ⟨(after.reverse, before.reverse), splitOnce_eq_some_iff.mpr ⟨by simp, ?_⟩, by simp⟩
    simpa using hmem

theorem splitOnce_eq_none_iff
    {c : Char} {s : List Char} :
    splitOnce c s = none ↔ c ∉ s := by
  induction s with
  | nil =>
      simp [splitOnce]
  | cons a s ih =>
      simp only [splitOnce]
      split
      · rename_i h
        simp [h]
      · rename_i h
        rw [Option.map_eq_none_iff, ih]
        simp [Ne.symm h]

theorem rsplitOnce_eq_none_iff
    {c : Char} {s : List Char} :
    rsplitOnce c s = none ↔ c ∉ s := by
  rw [rsplitOnce, Option.map_eq_none_iff, splitOnce_eq_none_iff, List.mem_reverse]

/-- `str::splitn`: at most `n` pieces, the last of which may hold `c`. -/
def splitN : Nat → Char → List Char → List (List Char)
  | 0, _, _ => []
  | 1, _, s => [s]
  | n + 2, c, s =>
      match splitOnce c s with
      | none => [s]
      | some (before, after) => before :: splitN (n + 1) c after

/-- A full number of pieces: all but the last are free of `c`. -/
theorem splitN_cons
    {n : Nat} {c : Char} {s piece next : List Char} {pieces : List (List Char)} :
    splitN (n + 2) c s = piece :: next :: pieces ↔
      ∃ rest, s = piece ++ c :: rest ∧ c ∉ piece ∧ splitN (n + 1) c rest = next :: pieces := by
  rw [splitN]
  constructor
  · intro h
    split at h
    · cases h
    · rename_i before after hsplit
      obtain ⟨hs, hmem⟩ := splitOnce_eq_some_iff.mp hsplit
      obtain ⟨rfl, hpieces⟩ := List.cons.inj h
      exact ⟨after, hs, hmem, hpieces⟩
  · rintro ⟨rest, hs, hmem, hpieces⟩
    rw [splitOnce_eq_some_iff.mpr ⟨hs, hmem⟩]
    simp [hpieces]

theorem utf8_ofList_cons
    (c : Char) (cs : List Char) :
    utf8 (String.ofList (c :: cs)) = String.utf8EncodeChar c ++ utf8 (String.ofList cs) := by
  unfold utf8
  rw [String.toByteArray_ofList, String.toByteArray_ofList, List.utf8Encode_cons,
    List.utf8Encode_singleton]
  simp [ByteArray.data_append]

theorem utf8EncodeChar_ascii
    {c : Char}
    (h : c.toNat < 128) :
    String.utf8EncodeChar c = [UInt8.ofNat c.toNat] := by
  have hval : c.val.toNat < 128 := h
  have hle : c.val ≤ 127 := UInt32.le_iff_toNat_le.mpr (by simp; omega)
  have hsize : c.utf8Size = 1 := by
    simp [Char.utf8Size, hle]
  rw [String.utf8EncodeChar_eq_singleton hsize]
  rfl

/-- The bytes of an ASCII text are its characters. -/
theorem utf8_ofList_ascii
    {cs : List Char}
    (h : ∀ c ∈ cs, c.toNat < 128) :
    utf8 (String.ofList cs) = cs.map (fun c => UInt8.ofNat c.toNat) := by
  induction cs with
  | nil =>
      rfl
  | cons c cs ih =>
      rw [utf8_ofList_cons, utf8EncodeChar_ascii (h c (by simp)),
        ih (fun d hd => h d (by simp [hd]))]
      rfl

theorem toNat_ofNat_ascii
    {n : Nat}
    (h : n < 128) :
    (Char.ofNat n).toNat = n := by
  have hvalid : n.isValidChar := Or.inl (by omega)
  rw [Char.ofNat, dif_pos hvalid]
  rfl

/-- The text whose characters are the given bytes. -/
def asciiString (bs : Bytes) : String :=
  String.ofList (bs.map (fun b => Char.ofNat b.toNat))

theorem utf8_asciiString
    {bs : Bytes}
    (h : ∀ b ∈ bs, b.toNat < 128) :
    utf8 (asciiString bs) = bs := by
  have hchars : ∀ c ∈ bs.map (fun b => Char.ofNat b.toNat), c.toNat < 128 := by
    intro c hc
    obtain ⟨b, hb, rfl⟩ := List.mem_map.mp hc
    rw [toNat_ofNat_ascii (h b hb)]
    exact h b hb
  rw [asciiString, utf8_ofList_ascii hchars, List.map_map]
  refine (List.map_congr_left ?_).trans (List.map_id bs)
  intro b hb
  simp [toNat_ofNat_ascii (h b hb)]

/-- An ASCII byte in the encoding of a character is that character. -/
theorem mem_utf8EncodeChar_iff
    {c d : Char}
    (hc : c.toNat < 128) :
    UInt8.ofNat c.toNat ∈ String.utf8EncodeChar d ↔ c = d := by
  have hbyte : (UInt8.ofNat c.toNat).toNat = c.toNat := by
    rw [UInt8.toNat_ofNat']
    omega
  constructor
  · intro hmem
    by_cases hd : d.toNat < 128
    · rw [utf8EncodeChar_ascii hd, List.mem_singleton, ← UInt8.toNat_inj, hbyte,
        UInt8.toNat_ofNat'] at hmem
      refine Char.toNat_inj.mp ?_
      omega
    -- the bytes of a longer encoding all have their high bit set
    · have hlarge : ¬ d.val.toNat ≤ 127 := by
        change ¬ d.toNat ≤ 127
        omega
      have hhigh : ∀ b ∈ String.utf8EncodeChar d, 128 ≤ b.toNat := by
        unfold String.utf8EncodeChar
        intro b hb
        simp only [hlarge, if_false] at hb
        split at hb
        · simp only [List.mem_cons, List.not_mem_nil, or_false] at hb
          rcases hb with rfl | rfl <;> rw [UInt8.toNat_ofNat'] <;> omega
        split at hb
        · simp only [List.mem_cons, List.not_mem_nil, or_false] at hb
          rcases hb with rfl | rfl | rfl <;> rw [UInt8.toNat_ofNat'] <;> omega
        · simp only [List.mem_cons, List.not_mem_nil, or_false] at hb
          rcases hb with rfl | rfl | rfl | rfl <;> rw [UInt8.toNat_ofNat'] <;> omega
      have := hhigh _ hmem
      omega
  · rintro rfl
    rw [utf8EncodeChar_ascii hc]
    exact List.mem_singleton_self _

/-- An ASCII character is in a text exactly when its byte is. -/
theorem mem_utf8_iff
    {c : Char} {s : String}
    (hc : c.toNat < 128) :
    UInt8.ofNat c.toNat ∈ utf8 s ↔ c ∈ s.toList := by
  have hchars : ∀ cs : List Char, UInt8.ofNat c.toNat ∈ utf8 (String.ofList cs) ↔ c ∈ cs := by
    intro cs
    induction cs with
    | nil =>
        exact iff_of_false (List.not_mem_nil) (List.not_mem_nil)
    | cons d cs ih =>
        rw [utf8_ofList_cons, List.mem_append, mem_utf8EncodeChar_iff hc, ih, List.mem_cons]
  have := hchars s.toList
  rwa [String.ofList_toList] at this

theorem utf8_append
    (s t : String) :
    utf8 (s ++ t) = utf8 s ++ utf8 t := by
  unfold utf8
  rw [String.toByteArray_append]
  simp [ByteArray.data_append]

/-- The length of words joined by a separator. -/
theorem length_intercalate
    {α : Type*} (sep : α) {words : List (List α)}
    (hne : words ≠ []) :
    ([sep].intercalate words).length + 1 = (words.map (fun w => w.length + 1)).sum := by
  induction words with
  | nil =>
      exact absurd rfl hne
  | cons w words ih =>
      cases words with
      | nil =>
          simp [List.intercalate_singleton]
      | cons next words =>
          have hrest := ih (by simp)
          rw [List.intercalate_cons_cons, List.map_cons, List.sum_cons, ← hrest]
          simp only [List.length_append, List.length_singleton]
          omega

/-- `String::from_utf8`. -/
def ofUtf8 (bs : Bytes) : Option String :=
  String.fromUTF8? ⟨bs.toArray⟩

/-- The bytes that are text, and which text. -/
theorem ofUtf8_eq_some_iff
    {bs : Bytes} {s : String} :
    ofUtf8 bs = some s ↔ bs = utf8 s := by
  unfold ofUtf8 String.fromUTF8?
  constructor
  · intro h
    split at h
    · cases h
      rfl
    · cases h
  · rintro rfl
    have hbytes : (⟨(utf8 s).toArray⟩ : ByteArray) = s.toByteArray := rfl
    rw [dif_pos (by rw [hbytes]; exact s.isValidUTF8)]
    rfl

end Text

end Lib
end Secretbae
