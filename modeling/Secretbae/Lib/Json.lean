import Mathlib.Data.List.Nodup
import Mathlib.Tactic

/-!
# JSON values and the fields of a struct

A JSON document as a tree, and what a derived deserializer sees of it: each
field of a struct is looked up by its name in an object, or by its position in
an array.  An object with an unknown or a repeated name is refused, and so is an
array with too many items.

`Json.fields_object` is how the fields of a serialized struct are found again.
-/

namespace Secretbae
namespace Lib

/-- A JSON value; a number is kept as it is written. -/
inductive Json where
  | null
  | bool (b : Bool)
  | number (literal : String)
  | string (s : String)
  | array (items : List Json)
  | object (members : List (String × Json))

namespace Json

/-- The fields of a struct with these names, all of them known and none repeated. -/
def fields (names : List String) : Json → Option (String → Option Json)
  | .object members =>
      if (members.map Prod.fst).Nodup ∧ ∀ name ∈ members.map Prod.fst, name ∈ names then
        some fun name => members.lookup name
      else none
  | .array items =>
      if items.length ≤ names.length then some fun name => items[names.idxOf name]? else none
  | _ => none

/-- The items of an array. -/
def items : Json → Option (List Json)
  | .array items => some items
  | _ => none

/-- A field with a default. -/
def defaulted {α : Type} (default : α) (decode : Json → Option α) : Option Json → Option α
  | none => some default
  | some v => decode v

/-- A field that may also be `null`. -/
def nullable {α : Type} (decode : Json → Option α) : Json → Option (Option α)
  | .null => some none
  | v => (decode v).map some

/-- A member that is left out when its list is empty. -/
def unlessEmpty {α : Type} (name : String) (encode : α → Json) : List α → List (String × Json)
  | [] => []
  | a :: as => [(name, .array ((a :: as).map encode))]

theorem fields_object
    {names : List String} (members : List (String × Json))
    (hsub : (members.map Prod.fst).Sublist names)
    (hnames : names.Nodup) :
    (Json.object members).fields names = some fun name => members.lookup name := by
  have hknown : ∀ name ∈ members.map Prod.fst, name ∈ names := fun _ hname => hsub.subset hname
  rw [fields, if_pos ⟨hnames.sublist hsub, hknown⟩]

theorem map_fst_unlessEmpty
    {α : Type} (name : String) (encode : α → Json) (as : List α) :
    ((unlessEmpty name encode as).map Prod.fst).Sublist [name] := by
  cases as with
  | nil => exact List.nil_sublist _
  | cons a as => exact List.Sublist.refl _

theorem lookup_unlessEmpty_ne
    {α : Type} {name other : String} (encode : α → Json) (as : List α)
    (more : List (String × Json))
    (h : other ≠ name) :
    (unlessEmpty name encode as ++ more).lookup other = more.lookup other := by
  cases as with
  | nil => rfl
  | cons a as =>
      have hname : (other == name) = false := beq_eq_false_iff_ne.mpr h
      simp [unlessEmpty, List.lookup_cons, hname]

/-- A list that is left out when it is empty is read back with an empty default. -/
theorem defaulted_unlessEmpty
    {α : Type} {name : String} {encode : α → Json} {decode : Json → Option (List α)}
    (h : ∀ as, decode (.array (as.map encode)) = some as) (as : List α)
    {more : List (String × Json)}
    (hmore : more.lookup name = none) :
    defaulted [] decode ((unlessEmpty name encode as ++ more).lookup name) = some as := by
  cases as with
  | nil =>
      rw [unlessEmpty, List.nil_append, hmore]
      rfl
  | cons a as =>
      simp only [unlessEmpty, List.cons_append, List.nil_append, List.lookup_cons_self]
      exact h (a :: as)

/-- The items of an encoded list are decoded again. -/
theorem mapM_encoded
    {α : Type} {encode : α → Json} {decode : Json → Option α}
    (h : ∀ a, decode (encode a) = some a) (as : List α) :
    (as.map encode).mapM decode = some as := by
  induction as with
  | nil =>
      rfl
  | cons a as ih =>
      rw [List.map_cons, List.mapM_cons, h, ih]
      rfl

end Json

end Lib
end Secretbae
