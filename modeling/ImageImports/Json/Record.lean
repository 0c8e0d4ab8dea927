import ImageImports.Json.Error

/-!
# `ImageImports.Json.Record`: typed fields of an object

A typed record takes some members of an object by name. Each field is checked on its own, and a
failed check remembers the place of the member it complains about. Of several complaints about one
object the one about the earliest member counts, and an absent member counts as standing behind all
others; so the outcome does not depend on the order in which a reader asks for its fields
(`Checked.both`).

Main definitions: `Members.required`, `Members.optional` and `readTagged`.
-/

set_option autoImplicit false

namespace ImageImports

open Json

/-- A mismatch in an object, and the place of the member it is about. -/
structure Complaint where
  /-- The number of members before it. -/
  place : Nat
  /-- What is wrong with it. -/
  cause : Mismatch

/-- A value read from the members of an object. -/
abbrev Checked (α : Type) := Except Complaint α

namespace Checked

/-- Both values; of two complaints the one about the earlier member, and of two absent members the
first one asked for. -/
def both {α β : Type} : Checked α → Checked β → Checked (α × β)
  | .ok a, .ok b => .ok (a, b)
  | .error x, .ok _ => .error x
  | .ok _, .error y => .error y
  | .error x, .error y => if y.place < x.place then .error y else .error x

/-- The value or the cause of the complaint, without its place. -/
def settle {α : Type} : Checked α → Except Mismatch α
  | .ok a => .ok a
  | .error x => .error x.cause

end Checked

namespace Members

/-- The first member with a key: the number of members before it, its value, and the members after
it. -/
def first? : Members → String → Option (Nat × Json × Members)
  | [], _ => none
  | (k, v) :: rest, key =>
      if k = key then some (0, v, rest)
      else (first? rest key).map fun (place, found) => (place + 1, found)

/-- Whether some member has a key. -/
def hasKey (members : Members) (key : String) : Bool := members.any fun (k, _) => k == key

/-- A member that may be absent. Its value is checked before the members after it are searched for
a repetition of the key. -/
def field? {α : Type} (members : Members) (key : String) (read : Json → Except Mismatch α) :
    Checked (Option α) :=
  match members.first? key with
  | none => .ok none
  | some (place, value, rest) =>
      match read value with
      | .error cause => .error ⟨place, cause⟩
      | .ok a =>
          match rest.first? key with
          | none => .ok (some a)
          | some (between, _, _) => .error ⟨place + 1 + between, .duplicateField key⟩

/-- A member that has to be there. -/
def required {α : Type} (members : Members) (key : String) (read : Json → Except Mismatch α) :
    Checked α :=
  match members.field? key read with
  | .error x => .error x
  | .ok (some a) => .ok a
  | .ok none => .error ⟨members.length, .missingField key⟩

/-- A member that may be absent, in which case a default takes its place. -/
def defaulted {α : Type} (members : Members) (key : String) (default : α)
    (read : Json → Except Mismatch α) : Checked α :=
  match members.field? key read with
  | .error x => .error x
  | .ok (some a) => .ok a
  | .ok none => .ok default

/-- A member that may be absent or null. -/
def optional {α : Type} (members : Members) (key : String) (read : Json → Except Mismatch α) :
    Checked (Option α) :=
  members.defaulted key none fun value =>
    match value with
    | .null => .ok none
    | other => (read other).map some

end Members

namespace Json

/-! ### Values of one kind -/

/-- The complaint that a value is not of the expected kind. -/
def wrongType {α : Type} (value : Json) (expected : String) : Except Mismatch α :=
  .error (.wrongType (found value) expected)

/-- Reads a text. -/
def readString : Json → Except Mismatch String
  | .string s => .ok s
  | other => other.wrongType "a string"

/-- Reads a truth value. -/
def readBool : Json → Except Mismatch Bool
  | .bool b => .ok b
  | other => other.wrongType "a boolean"

/-- Reads every item, up to the first that does not fit. -/
def readItems {α : Type} (read : Json → Except Mismatch α) : List Json → Except Mismatch (List α)
  | [] => .ok []
  | x :: xs =>
      match read x with
      | .error cause => .error cause
      | .ok a => (readItems read xs).map (a :: ·)

/-- Reads a list. -/
def readList {α : Type} (read : Json → Except Mismatch α) : Json → Except Mismatch (List α)
  | .array xs => readItems read xs
  | other => other.wrongType "a sequence"

/-- The members of a record of the given name. -/
def readRecord (name : String) : Json → Except Mismatch Members
  | .object members => .ok members
  | other => other.wrongType ("struct " ++ name)

/-! ### Names of variants -/

/-- How the variant of a tagged value may be named: by its name alone, or also by its position in
the list of variants. Positions are understood inside values that are read as a whole before
their type is known. -/
inductive TagForm where
  | name
  | nameOrPosition
deriving DecidableEq, Repr

/-- Reads the name or the position of a variant. -/
def readTag {α : Type} (form : TagForm) (variants : List (String × α)) : Json → Except Mismatch α
  | .string s =>
      match variants.lookup s with
      | some a => .ok a
      | none => .error (.unknownVariant s (variants.map Prod.fst))
  | .number (.integer n) =>
      if form = .nameOrPosition ∧ 0 ≤ n then
        match variants[n.toNat]? with
        | some (_, a) => .ok a
        | none => .error (.variantOutOfRange n variants.length)
      else (Json.integer n).wrongType "variant identifier"
  | other => other.wrongType "variant identifier"

/-- Reads a value whose member `type` names its variant: the variant and the rest of the value. A
list names its variant in its first item. -/
def readTagged {α : Type} (name : String) (form : TagForm) (variants : List (String × α)) :
    Json → Except Mismatch (α × Json)
  | .object members =>
      match Members.required members "type" (readTag form variants) with
      | .ok a => .ok (a, .object (Members.keep members (· != "type")))
      | .error x => .error x.cause
  | .array [] => .error (.missingField "type")
  | .array (tag :: rest) => (readTag form variants tag).map fun a => (a, .array rest)
  | other => other.wrongType ("internally tagged enum " ++ name)

/-- Reads a bare name: a text, or an object whose only key is the name and whose value says
nothing. -/
def readChoice {α : Type} (variants : List (String × α)) (saysNothing : Json → Bool) :
    Json → Except Mismatch α
  | .string s =>
      match variants.lookup s with
      | some a => .ok a
      | none => .error (.unknownVariant s (variants.map Prod.fst))
  | .object [(key, value)] =>
      match variants.lookup key with
      | some a => if saysNothing value then .ok a else value.wrongType "unit"
      | none => .error (.unknownVariant key (variants.map Prod.fst))
  | .object _ => .error .notSingleKey
  | other => other.wrongType "string or map"

/-- Whether a value is null. -/
def isNull : Json → Bool
  | .null => true
  | _ => false

/-- Whether a value is null or an object without members. -/
def isNullOrEmpty : Json → Bool
  | .null => true
  | .object [] => true
  | _ => false

end Json

end ImageImports
