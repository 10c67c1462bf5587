import Secretbae.Lib.Bytes
import Secretbae.Lib.Json
import Secretbae.Lib.Numeral

/-!
# Codecs for JSON

A `Codec` writes the values of a type and reads them back.  Codecs of structs
are put together from their fields: a field says how it is written and what its
absence means, a `Record` is a sequence of fields, and `Record.codec` reads it
from an object or from an array.

A codec is `Exact` if it reads nothing but what it writes.  A struct of exact
fields is not exact itself, since its members may stand in any order and those
with their default may be left out or spelled out, but that is all:
`Record.decode_iff` says which values are read as a struct.
-/

namespace Secretbae
namespace Lib

structure Codec (α : Type) where
  encode : α → Json
  decode : Json → Option α
  decode_encode : ∀ a, decode (encode a) = some a

namespace Codec

variable {α β : Type}

/-- Nothing is read but what is written. -/
def Exact (c : Codec α) : Prop :=
  ∀ v a, c.decode v = some a → v = c.encode a

theorem Exact.decode_iff
    {c : Codec α} {v : Json} {a : α}
    (h : c.Exact) :
    c.decode v = some a ↔ v = c.encode a := by
  constructor
  · exact h v a
  · rintro rfl
    exact c.decode_encode a

/-- No value is written as `null`, nor read from it. -/
def NotNull (c : Codec α) : Prop :=
  c.decode .null = none

def string : Codec String where
  encode := .string
  decode
    | .string s => some s
    | _ => none
  decode_encode _ := rfl

theorem exact_string : string.Exact := by
  intro v a h
  cases v <;> cases h
  rfl

def bool : Codec Bool where
  encode := .bool
  decode
    | .bool b => some b
    | _ => none
  decode_encode _ := rfl

theorem exact_bool : bool.Exact := by
  intro v a h
  cases v <;> cases h
  rfl

/-- A type with `try_from` and `into`. -/
def via (c : Codec β) (into : α → β) (tryFrom : β → Option α)
    (h : ∀ a, tryFrom (into a) = some a) : Codec α where
  encode a := c.encode (into a)
  decode v := c.decode v >>= tryFrom
  decode_encode a := by
    rw [c.decode_encode]
    exact h a

theorem Exact.via
    {c : Codec β} {into : α → β} {tryFrom : β → Option α} {h : ∀ a, tryFrom (into a) = some a}
    (hc : c.Exact)
    (hfrom : ∀ b a, tryFrom b = some a → b = into a) :
    (c.via into tryFrom h).Exact := by
  intro v a hv
  obtain ⟨b, hb, ha⟩ := Option.bind_eq_some_iff.mp hv
  rw [hc v b hb, hfrom b a ha]
  rfl

/-- The literal of a number has no zeros in front of it. -/
def natural? (bound : Nat) (literal : List Char) : Option Nat :=
  (parseUnsigned bound literal).filter fun n => decide (literal = Nat.toDigits 10 n)

theorem natural?_eq_some_iff
    {bound n : Nat} {literal : List Char} :
    natural? bound literal = some n ↔ n < bound ∧ literal = Nat.toDigits 10 n := by
  rw [natural?, Option.filter_eq_some_iff, parseUnsigned_eq_some_iff, decide_eq_true_eq]
  constructor
  · rintro ⟨⟨hlt, -⟩, heq⟩
    exact ⟨hlt, heq⟩
  · rintro ⟨hlt, rfl⟩
    exact ⟨⟨hlt, spells_toDigits n⟩, rfl⟩

/-- An unsigned integer type with values below a bound. -/
def unsigned (bound : Nat) : Codec (Fin bound) where
  encode n := .number (String.ofList (Nat.toDigits 10 n))
  decode
    | .number literal =>
        (natural? bound literal.toList).pmap (fun n h => ⟨n, h⟩)
          fun n hn => (natural?_eq_some_iff.mp (Option.mem_def.mp hn)).1
    | _ => none
  decode_encode n := by
    have hn : natural? bound (Nat.toDigits 10 n) = some n.val :=
      natural?_eq_some_iff.mpr ⟨n.isLt, rfl⟩
    simp only [String.toList_ofList, hn, Option.pmap_some]

theorem exact_unsigned
    (bound : Nat) :
    (unsigned bound).Exact := by
  intro v a h
  cases v with
  | number literal =>
      obtain ⟨n, hn, hliteral, rfl⟩ := Option.pmap_eq_some_iff.mp h
      obtain ⟨-, heq⟩ := natural?_eq_some_iff.mp hliteral
      change Json.number literal = .number (String.ofList (Nat.toDigits 10 n))
      rw [← heq, String.ofList_toList]
  | _ => cases h

def list (c : Codec α) : Codec (List α) where
  encode as := .array (as.map c.encode)
  decode v := v.items >>= fun items => items.mapM c.decode
  decode_encode as := Json.mapM_encoded c.decode_encode as

theorem Exact.mapM
    {c : Codec α} {vs : List Json} {as : List α}
    (h : c.Exact)
    (hread : vs.mapM c.decode = some as) :
    vs = as.map c.encode := by
  induction vs generalizing as with
  | nil =>
      cases hread
      rfl
  | cons v vs ih =>
      rw [List.mapM_cons] at hread
      obtain ⟨a, ha, hrest⟩ := Option.bind_eq_some_iff.mp hread
      obtain ⟨as', has, heq⟩ := Option.bind_eq_some_iff.mp hrest
      cases heq
      rw [List.map_cons, ← h v a ha, ← ih has]

theorem Exact.list
    {c : Codec α}
    (h : c.Exact) :
    c.list.Exact := by
  intro v as hv
  obtain ⟨items, hitems, hread⟩ := Option.bind_eq_some_iff.mp hv
  cases v with
  | array vs =>
      cases hitems
      rw [h.mapM hread]
      rfl
  | _ => cases hitems

theorem nullable_of_some
    {decode : Json → Option α} {v : Json} {a : α}
    (hnull : decode .null = none)
    (h : decode v = some a) :
    Json.nullable decode v = some (some a) := by
  cases v with
  | null =>
      rw [hnull] at h
      cases h
  | _ => exact congrArg (Option.map some) h

/-- An `Option`, where `null` stands for nothing. -/
def nullable (c : Codec α) (h : c.NotNull) : Codec (Option α) where
  encode
    | none => .null
    | some a => c.encode a
  decode := Json.nullable c.decode
  decode_encode
    | none => rfl
    | some a => nullable_of_some h (c.decode_encode a)

theorem Exact.nullable
    {c : Codec α} {hnull : c.NotNull}
    (h : c.Exact) :
    (c.nullable hnull).Exact := by
  intro v a hv
  change Json.nullable c.decode v = some a at hv
  unfold Json.nullable at hv
  split at hv
  · cases hv
    rfl
  · obtain ⟨b, hb, rfl⟩ := Option.map_eq_some_iff.mp hv
    exact h v b hb

end Codec

/-- What a struct is read from. -/
inductive Form where
  | object
  | array
deriving DecidableEq

def Json.form : Json → Form
  | .array _ => .array
  | _ => .object

/-- The same member, where one with the default may also be left out. -/
def SameMember (default v w : Option Json) : Prop :=
  v = w ∨ (v = none ∨ v = default) ∧ (w = none ∨ w = default)

/-- A field of a struct; a member with the default may be left out. -/
structure Field (α : Type) where
  name : String
  write : α → Option Json
  read : Form → Option Json → Option α
  default : Form → Option Json
  read_write : ∀ a, read .object (write a) = some a

namespace Field

variable {α : Type}

/-- Nothing is read but what is written, up to the default. -/
def Exact (f : Field α) : Prop :=
  ∀ form v a, f.read form v = some a ↔ SameMember (f.default form) v (f.write a)

/-- A field without attributes. -/
def required (name : String) (c : Codec α) : Field α where
  name
  write a := some (c.encode a)
  read _ v := v >>= c.decode
  default _ := none
  read_write a := c.decode_encode a

theorem exact_required
    {name : String} {c : Codec α}
    (h : c.Exact) :
    (required name c).Exact := by
  intro form v a
  change (v >>= c.decode) = some a ↔ SameMember none v (some (c.encode a))
  cases v with
  | none => simp [SameMember]
  | some v => simp [SameMember, h.decode_iff]

/-- A field with `default`, which is not written where `skip` holds. -/
def defaulted (name : String) (c : Codec α) (d : α) (skip : α → Bool)
    (hskip : ∀ a, skip a = true → a = d) : Field α where
  name
  write a := if skip a then none else some (c.encode a)
  read _ := Json.defaulted d c.decode
  default _ := some (c.encode d)
  read_write a := by
    split
    · rename_i hs
      rw [hskip a hs]
      rfl
    · exact c.decode_encode a

theorem exact_defaulted
    {name : String} {c : Codec α} {d : α} {skip : α → Bool} {hskip : ∀ a, skip a = true → a = d}
    (h : c.Exact) :
    (defaulted name c d skip hskip).Exact := by
  intro form v a
  change Json.defaulted d c.decode v = some a ↔
    SameMember (some (c.encode d)) v (if skip a then none else some (c.encode a))
  have hinj : c.encode a = c.encode d ↔ a = d :=
    ⟨fun heq => Option.some.inj (by rw [← c.decode_encode a, heq, c.decode_encode]),
      congrArg c.encode⟩
  unfold SameMember
  cases v with
  | none =>
      simp only [Json.defaulted, Option.some.injEq]
      split
      · rename_i hs
        simp [hskip a hs]
      · simp only [Option.some.injEq, reduceCtorEq, false_or, true_or, true_and, hinj]
        exact eq_comm
  | some v =>
      simp only [Json.defaulted, h.decode_iff]
      split
      · rename_i hs
        simp [hskip a hs]
      · simp only [Option.some.injEq, reduceCtorEq, false_or, hinj]
        constructor
        · exact .inl
        · rintro (heq | ⟨heq, rfl⟩) <;> exact heq

/-- An `Option` without attributes: in an object it may be left out. -/
def optional (name : String) (c : Codec α) (hnull : c.NotNull) : Field (Option α) where
  name
  write a := some ((c.nullable hnull).encode a)
  read form v :=
    match v, form with
    | none, .object => some none
    | none, .array => none
    | some v, _ => (c.nullable hnull).decode v
  default
    | .object => some .null
    | .array => none
  read_write a := (c.nullable hnull).decode_encode a

end Field

/-- The fields of a struct, in their order. -/
structure Record (α : Type) where
  names : List String
  nodup : names.Nodup
  write : α → List (String × Json)
  read : Form → (String → Option Json) → Option α
  default : Form → String → Option Json
  write_names : ∀ a, ((write a).map Prod.fst).Sublist names
  read_write :
    ∀ a look, (∀ name ∈ names, look name = (write a).lookup name) → read .object look = some a

namespace Record

variable {α β : Type}

/-- Members that are not there are not found. -/
theorem lookup_write
    {r : Record α} {name : String} (a : α)
    (h : name ∉ r.names) :
    (r.write a).lookup name = none := by
  rw [List.lookup_eq_none_iff]
  intro member hmember
  have hmem := (r.write_names a).subset (List.mem_map_of_mem hmember)
  exact bne_iff_ne.mpr fun heq => h (heq ▸ hmem)

def field (f : Field α) : Record α where
  names := [f.name]
  nodup := List.nodup_singleton _
  write a := (f.write a).toList.map (Prod.mk f.name)
  read form look := f.read form (look f.name)
  default form _ := f.default form
  write_names a := by
    cases f.write a with
    | none => exact List.nil_sublist _
    | some v => exact List.Sublist.refl _
  read_write a look hlook := by
    rw [hlook f.name List.mem_cons_self]
    have hread := f.read_write a
    cases hwrite : f.write a with
    | none =>
        rw [hwrite] at hread
        exact hread
    | some v =>
        rw [hwrite] at hread
        simpa using hread

theorem lookup_field
    (f : Field α) (a : α) :
    ((field f).write a).lookup f.name = f.write a := by
  simp only [field]
  cases f.write a <;> simp

/-- The fields of both. -/
def and (x : Record α) (y : Record β) (h : (x.names ++ y.names).Nodup) : Record (α × β) where
  names := x.names ++ y.names
  nodup := h
  write p := x.write p.1 ++ y.write p.2
  read form look := do
    let a ← x.read form look
    let b ← y.read form look
    some (a, b)
  default form name := if name ∈ x.names then x.default form name else y.default form name
  write_names p := by
    rw [List.map_append]
    exact (x.write_names p.1).append (y.write_names p.2)
  read_write p look hlook := by
    have hx : x.read .object look = some p.1 := by
      refine x.read_write p.1 look fun name hname => ?_
      rw [hlook name (List.mem_append_left _ hname), List.lookup_append,
        lookup_write p.2 fun hy => List.disjoint_of_nodup_append h hname hy, Option.or_none]
    have hy : y.read .object look = some p.2 := by
      refine y.read_write p.2 look fun name hname => ?_
      rw [hlook name (List.mem_append_right _ hname), List.lookup_append,
        lookup_write p.1 fun hx => List.disjoint_of_nodup_append h hx hname, Option.none_or]
    rw [hx, hy]
    rfl

/-- The same fields, of another type with the same values. -/
def map (r : Record α) (e : α ≃ β) : Record β where
  names := r.names
  nodup := r.nodup
  write b := r.write (e.symm b)
  read form look := (r.read form look).map e
  default := r.default
  write_names b := r.write_names (e.symm b)
  read_write b look hlook := by
    rw [r.read_write (e.symm b) look hlook]
    simp

/-- How a derived deserializer reads a struct, and a derived serializer writes it. -/
def codec (r : Record α) : Codec α where
  encode a := .object (r.write a)
  decode v := v.fields r.names >>= r.read v.form
  decode_encode a := by
    rw [Json.fields_object (r.write a) (r.write_names a) r.nodup]
    exact r.read_write a _ fun _ _ => rfl

/-- Nothing is read but what is written, up to defaults. -/
def Exact (r : Record α) : Prop :=
  ∀ form look a, r.read form look = some a ↔
    ∀ name ∈ r.names, SameMember (r.default form name) (look name) ((r.write a).lookup name)

theorem exact_field
    {f : Field α}
    (h : f.Exact) :
    (field f).Exact := by
  intro form look a
  change f.read form (look f.name) = some a ↔ ∀ name ∈ [f.name],
    SameMember (f.default form) (look name) (((field f).write a).lookup name)
  simp only [List.forall_mem_singleton, lookup_field]
  exact h form (look f.name) a

theorem Exact.and
    {x : Record α} {y : Record β} {hnodup : (x.names ++ y.names).Nodup}
    (hx : x.Exact)
    (hy : y.Exact) :
    (x.and y hnodup).Exact := by
  rintro form look ⟨a, b⟩
  have hread : (x.and y hnodup).read form look = some (a, b) ↔
      x.read form look = some a ∧ y.read form look = some b := by
    change (do
      let a ← x.read form look
      let b ← y.read form look
      some (a, b)) = some (a, b) ↔ _
    cases x.read form look <;> cases y.read form look <;> simp
  have hleft : ∀ name ∈ x.names, (x.and y hnodup).default form name = x.default form name ∧
      ((x.and y hnodup).write (a, b)).lookup name = (x.write a).lookup name := by
    intro name hname
    refine ⟨if_pos hname, ?_⟩
    change (x.write a ++ y.write b).lookup name = _
    rw [List.lookup_append, lookup_write b fun h =>
      List.disjoint_of_nodup_append hnodup hname h, Option.or_none]
  have hright : ∀ name ∈ y.names, (x.and y hnodup).default form name = y.default form name ∧
      ((x.and y hnodup).write (a, b)).lookup name = (y.write b).lookup name := by
    intro name hname
    have hother : name ∉ x.names := fun h => List.disjoint_of_nodup_append hnodup h hname
    refine ⟨if_neg hother, ?_⟩
    change (x.write a ++ y.write b).lookup name = _
    rw [List.lookup_append, lookup_write a hother, Option.none_or]
  rw [hread, hx form look a, hy form look b]
  change _ ↔ ∀ name ∈ x.names ++ y.names, _
  rw [List.forall_mem_append]
  refine and_congr (forall₂_congr fun name hname => ?_) (forall₂_congr fun name hname => ?_)
  · rw [(hleft name hname).1, (hleft name hname).2]
  · rw [(hright name hname).1, (hright name hname).2]

theorem Exact.map
    {r : Record α} {e : α ≃ β}
    (h : r.Exact) :
    (r.map e).Exact := by
  intro form look b
  have hread : (r.read form look).map e = some b ↔ r.read form look = some (e.symm b) := by
    rw [Option.map_eq_some_iff]
    constructor
    · rintro ⟨a, ha, rfl⟩
      rw [ha, e.symm_apply_apply]
    · intro ha
      exact ⟨_, ha, e.apply_symm_apply b⟩
  exact hread.trans (h form look (e.symm b))

/--
The value has the members of `a`, each once and no others, or has them at their
positions; a member may differ from that of `a` where both are the default.
-/
def Accepts (r : Record α) (a : α) : Json → Prop
  | .object members =>
      (members.map Prod.fst).Nodup ∧ (∀ name ∈ members.map Prod.fst, name ∈ r.names) ∧
        ∀ name ∈ r.names,
          SameMember (r.default .object name) (members.lookup name) ((r.write a).lookup name)
  | .array items =>
      items.length ≤ r.names.length ∧
        ∀ name ∈ r.names,
          SameMember (r.default .array name) items[r.names.idxOf name]? ((r.write a).lookup name)
  | _ => False

/-- What is read as a struct of exact fields. -/
theorem decode_iff
    {r : Record α} {v : Json} {a : α}
    (h : r.Exact) :
    r.codec.decode v = some a ↔ r.Accepts a v := by
  change (v.fields r.names >>= r.read v.form) = some a ↔ _
  rw [Option.bind_eq_bind, Option.bind_eq_some_iff]
  cases v with
  | object members =>
      simp only [Json.fields, Json.form, Accepts, h .object _ a, ← and_assoc]
      split
      · rename_i hnames
        simp only [Option.some.injEq, exists_eq_left', and_iff_right hnames]
      · rename_i hnames
        simp only [reduceCtorEq, false_and, exists_false, hnames]
  | array items =>
      simp only [Json.fields, Json.form, Accepts, h .array _ a]
      split
      · rename_i hlength
        simp [hlength]
      · rename_i hlength
        simp [hlength]
  | _ => simp [Json.fields, Accepts]

end Record

section Bytes

/-- A format of JSON in bytes. -/
structure JsonBytes where
  toVec : Json → Bytes
  fromSlice : Bytes → Option Json
  toStringPretty : Json → String

/-- The value is read back from its bytes. -/
def JsonBytes.Rereads (T : JsonBytes) (v : Json) : Prop :=
  T.fromSlice (T.toVec v) = some v

/-- The bytes of a value of a type. -/
def JsonBytes.encode {α : Type} (T : JsonBytes) (c : Codec α) (a : α) : Bytes :=
  T.toVec (c.encode a)

/-- The value of a type in these bytes. -/
def JsonBytes.decode {α : Type} (T : JsonBytes) (c : Codec α) (bytes : Bytes) : Option α :=
  T.fromSlice bytes >>= c.decode

theorem JsonBytes.decode_encode
    {α : Type} {T : JsonBytes} {c : Codec α} {a : α}
    (h : T.Rereads (c.encode a)) :
    T.decode c (T.encode c a) = some a := by
  rw [JsonBytes.decode, JsonBytes.encode, h]
  exact c.decode_encode a

end Bytes

end Lib
end Secretbae
