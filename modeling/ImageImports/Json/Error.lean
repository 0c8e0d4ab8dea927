import ImageImports.Json.Number
import ImageImports.Text.Shown

/-!
# `ImageImports.Json.Error`: what can be wrong with a JSON text

Two kinds of complaint. A `Fault` says that a text is no JSON text and always has a position. A
`Mismatch` says that a well-formed value does not have the shape that its reader asks for; it has a
position only where the reader still stands in the text.

Main definitions: `Fault.message`, `Mismatch.message` and `ReadError.message`.
-/

set_option autoImplicit false

namespace ImageImports

/-- A place in a text: the line counts from one, the column counts the bytes before it. -/
structure Position where
  /-- The number of line breaks before the place, plus one. -/
  line : Nat
  /-- The number of bytes between the last line break and the place. -/
  column : Nat
deriving DecidableEq, Repr

namespace Json

/-- Why a text is not a JSON text. -/
inductive Fault where
  | endOfList
  | endOfObject
  | endOfString
  | endOfValue
  | expectedColon
  | expectedListCommaOrEnd
  | expectedObjectCommaOrEnd
  | expectedLiteral
  | expectedValue
  | invalidEscape
  | invalidNumber
  | numberOutOfRange
  | keyNotString
  | controlCharacter
  | loneSurrogate
  | unfinishedSurrogate
  | trailingComma
  | trailingCharacters
  | tooDeep
deriving DecidableEq, Repr

/-- The text of a fault, without its position. -/
def Fault.message : Fault → String
  | .endOfList => "EOF while parsing a list"
  | .endOfObject => "EOF while parsing an object"
  | .endOfString => "EOF while parsing a string"
  | .endOfValue => "EOF while parsing a value"
  | .expectedColon => "expected `:`"
  | .expectedListCommaOrEnd => "expected `,` or `]`"
  | .expectedObjectCommaOrEnd => "expected `,` or `\x7d`"
  | .expectedLiteral => "expected ident"
  | .expectedValue => "expected value"
  | .invalidEscape => "invalid escape"
  | .invalidNumber => "invalid number"
  | .numberOutOfRange => "number out of range"
  | .keyNotString => "key must be a string"
  | .controlCharacter => "control character (\\u0000-\\u001F) found while parsing a string"
  | .loneSurrogate => "lone leading surrogate in hex escape"
  | .unfinishedSurrogate => "unexpected end of hex escape"
  | .trailingComma => "trailing comma"
  | .trailingCharacters => "trailing characters"
  | .tooDeep => "recursion limit exceeded"

/-- What a reader found in the place of what it asked for. Containers are named without their
contents. -/
inductive Found where
  | null
  | bool (value : Bool)
  | number (value : Number)
  | string (value : String)
  | array
  | object
deriving DecidableEq, Repr

/-- The description of a value that stands in the wrong place. -/
def found : Json → Found
  | .null => .null
  | .bool b => .bool b
  | .number n => .number n
  | .string s => .string s
  | .array _ => .array
  | .object _ => .object

/-- The text of a description. -/
def Found.text : Found → String
  | .null => "null"
  | .bool b => "boolean `" ++ (if b then "true" else "false") ++ "`"
  | .number (.integer n) => "integer `" ++ toString n ++ "`"
  | .number (.float negative x) => "floating point `" ++ (Number.float negative x).text ++ "`"
  | .string s => "string " ++ Text.shown s
  | .array => "sequence"
  | .object => "map"

/-- Why a value does not have the shape that its reader asks for. -/
inductive Mismatch where
  /-- A value of the wrong kind. -/
  | wrongType (found : Found) (expected : String)
  /-- A required member is absent. -/
  | missingField (name : String)
  /-- A member that the reader knows occurs twice. -/
  | duplicateField (name : String)
  /-- A name that is none of the known ones. -/
  | unknownVariant (name : String) (known : List String)
  /-- A position that is no position of a known name. -/
  | variantOutOfRange (index : Int) (count : Nat)
  /-- A name given as an object that does not have exactly one member. -/
  | notSingleKey
  /-- None of the shapes that the named type can have. -/
  | noVariant (type : String)
  /-- More items than the reader has fields for. -/
  | tooManyItems (count : Nat)
deriving DecidableEq, Repr

/-- The known names as an enumeration: two with `or` between them, more after `one of`. -/
def alternatives (names : List String) : String :=
  match names.map fun name => "`" ++ name ++ "`" with
  | [] => ""
  | [a] => a
  | [a, b] => a ++ " or " ++ b
  | many => "one of " ++ String.intercalate ", " many

/-- The text of a mismatch, without a position. -/
def Mismatch.message : Mismatch → String
  | .wrongType found expected => "invalid type: " ++ found.text ++ ", expected " ++ expected
  | .missingField name => "missing field `" ++ name ++ "`"
  | .duplicateField name => "duplicate field `" ++ name ++ "`"
  | .unknownVariant name known =>
      "unknown variant `" ++ name ++ "`, "
        ++ (if known.isEmpty then "there are no variants" else "expected " ++ alternatives known)
  | .variantOutOfRange index count =>
      "invalid value: integer `" ++ toString index
        ++ "`, expected variant index 0 <= i < " ++ toString count
  | .notSingleKey => "invalid value: map, expected map with a single key"
  | .noVariant type => "data did not match any variant of untagged enum " ++ type
  | .tooManyItems count =>
      "invalid length " ++ toString count ++ ", expected fewer elements in array"

/-- Why a typed value could not be read from a text. -/
inductive ReadError where
  /-- The text is no JSON text. -/
  | fault (cause : Fault) (place : Position)
  /-- The value has the wrong shape; the position is known only while the reader stands in the
  text. -/
  | mismatch (cause : Mismatch) (place : Option Position)
deriving DecidableEq, Repr

/-- A message followed by the place it speaks of. -/
def locate (message : String) (place : Position) : String :=
  message ++ " at line " ++ toString place.line ++ " column " ++ toString place.column

/-- The full text of an error. -/
def ReadError.message : ReadError → String
  | .fault cause place => locate cause.message place
  | .mismatch cause (some place) => locate cause.message place
  | .mismatch cause none => cause.message

end Json

end ImageImports
