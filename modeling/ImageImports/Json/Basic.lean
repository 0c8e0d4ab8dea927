import ImageImports.Decimal.Binary64

/-!
# `ImageImports.Json.Basic`: JSON values

A value keeps the members of an object as a list of key-value pairs, in the order of the text it
came from and with every repetition of a key. A value is *in normal form* when the members of each
of its objects are sorted by key and no key occurs twice; `Json.normalize` brings a value into that
form, and of a repeated key the last value counts.

Keys are ordered by code points, which is also the order of their UTF-8 bytes.
-/

set_option autoImplicit false

namespace ImageImports

/-- A JSON number: an integer of at most 64 bits, or a floating point number. Zero has a sign only
as a floating point number. -/
inductive Number where
  /-- An integer between `-2 ^ 63` and `2 ^ 64 - 1`. -/
  | integer (value : Int)
  /-- A finite floating point number, given by its sign and its magnitude. -/
  | float (negative : Bool) (magnitude : Binary64)
deriving DecidableEq, Repr

namespace Number

/-- Whether two numbers are equal as JSON numbers: an integer never equals a floating point number,
and the two floating point zeros are equal. -/
def same : Number → Number → Bool
  | .integer a, .integer b => a == b
  | .float s a, .float t b => a == b && (s == t || a.isZero)
  | _, _ => false

end Number

/-- A JSON value. -/
inductive Json where
  /-- The value `null`. -/
  | null
  /-- A truth value. -/
  | bool (value : Bool)
  /-- A number. -/
  | number (value : Number)
  /-- A text. -/
  | string (value : String)
  /-- A list of values. -/
  | array (items : List Json)
  /-- The members of an object as they are written. -/
  | object (members : List (String × Json))
deriving Repr

/-- The key-value pairs of an object, in the order in which they are written. -/
abbrev Members := List (String × Json)

namespace Json

instance : Inhabited Json := ⟨.null⟩

/-- The value of an integer number. -/
def integer (n : Int) : Json := .number (.integer n)

/-- The text of a string value. -/
def string? : Json → Option String
  | .string s => some s
  | _ => none

/-! ### Equality -/

mutual

/-- Whether two values are equal, member by member and item by item, with numbers compared by
`Number.same`. -/
def same : Json → Json → Bool
  | .null, .null => true
  | .bool a, .bool b => a == b
  | .number a, .number b => a.same b
  | .string a, .string b => a == b
  | .array xs, .array ys => sameItems xs ys
  | .object ms, .object ns => sameMembers ms ns
  | _, _ => false

/-- Whether two lists hold equal values at equal places. -/
def sameItems : List Json → List Json → Bool
  | [], [] => true
  | x :: xs, y :: ys => same x y && sameItems xs ys
  | _, _ => false

/-- Whether two lists of members have equal keys and values at equal places. -/
def sameMembers : Members → Members → Bool
  | [], [] => true
  | (k, x) :: xs, (l, y) :: ys => k == l && same x y && sameMembers xs ys
  | _, _ => false

end

end Json

namespace Members

/-- The last value under a key. -/
def last? : Members → String → Option Json
  | [], _ => none
  | (k, v) :: rest, key =>
      match last? rest key with
      | some w => some w
      | none => if k = key then some v else none

/-- Puts a member into a sorted list in the place of its key; an earlier value under that key is
replaced. -/
def insert : Members → String → Json → Members
  | [], key, value => [(key, value)]
  | (k, v) :: rest, key, value =>
      if key < k then (key, value) :: (k, v) :: rest
      else if key = k then (key, value) :: rest
      else (k, v) :: insert rest key value

/-- The sorted members; of a repeated key the last value stays. -/
def sort (members : Members) : Members :=
  members.foldl (fun sorted (k, v) => sorted.insert k v) []

/-- The members whose key satisfies a condition, in their order. -/
def keep (members : Members) (p : String → Bool) : Members :=
  members.filter fun (k, _) => p k

end Members

namespace Json

mutual

/-- The value in normal form: the members of every object sorted by key, and of a repeated key the
last value. -/
def normalize : Json → Json
  | .array items => .array (normalizeItems items)
  | .object members => .object (Members.sort (normalizeMembers members))
  | .null => .null
  | .bool b => .bool b
  | .number n => .number n
  | .string s => .string s

/-- Every item in normal form. -/
def normalizeItems : List Json → List Json
  | [] => []
  | x :: xs => normalize x :: normalizeItems xs

/-- Every member's value in normal form, the members in their order. -/
def normalizeMembers : Members → Members
  | [] => []
  | (k, x) :: xs => (k, normalize x) :: normalizeMembers xs

end

end Json

end ImageImports
