import ImageImports.Json.Number
import ImageImports.Json.Quoted

/-!
# `ImageImports.Json.Printer`: the text of a JSON value

Members are written in the order in which the value holds them, repeated keys included. The compact
form has no blanks at all. The pretty form puts every item and every member on a line of its own,
indented by two blanks for each level; an empty array or object stays on one line.

Main definitions: `Json.compact` and `Json.pretty`.
-/

set_option autoImplicit false

namespace ImageImports.Json

/-! ### Compact form -/

mutual

/-- The value without blanks. -/
def compact : Json → String
  | .null => "null"
  | .bool b => if b then "true" else "false"
  | .number n => n.text
  | .string s => quote s
  | .array items => "[" ++ compactItems items ++ "]"
  | .object members => "\x7b" ++ compactMembers members ++ "\x7d"

/-- The items of an array, with commas between them. -/
def compactItems : List Json → String
  | [] => ""
  | [x] => compact x
  | x :: rest => compact x ++ "," ++ compactItems rest

/-- The members of an object, with commas between them. -/
def compactMembers : List (String × Json) → String
  | [] => ""
  | [(k, x)] => quote k ++ ":" ++ compact x
  | (k, x) :: rest => quote k ++ ":" ++ compact x ++ "," ++ compactMembers rest

end

/-! ### Pretty form -/

/-- A line break followed by the indentation of a level. -/
def newline (level : Nat) : String :=
  "\n" ++ String.ofList (List.replicate (2 * level) ' ')

mutual

/-- The value over several lines, inside a container of the given level. -/
def prettyAt (level : Nat) : Json → String
  | .null => "null"
  | .bool b => if b then "true" else "false"
  | .number n => n.text
  | .string s => quote s
  | .array [] => "[]"
  | .array (x :: rest) =>
      "[" ++ newline (level + 1) ++ prettyAt (level + 1) x
        ++ prettyItems (level + 1) rest ++ newline level ++ "]"
  | .object [] => "\x7b\x7d"
  | .object ((k, x) :: rest) =>
      "\x7b" ++ newline (level + 1) ++ quote k ++ ": " ++ prettyAt (level + 1) x
        ++ prettyMembers (level + 1) rest ++ newline level ++ "\x7d"

/-- The items after the first one, each after a comma and a line break. -/
def prettyItems (level : Nat) : List Json → String
  | [] => ""
  | x :: rest => "," ++ newline level ++ prettyAt level x ++ prettyItems level rest

/-- The members after the first one, each after a comma and a line break. -/
def prettyMembers (level : Nat) : List (String × Json) → String
  | [] => ""
  | (k, x) :: rest =>
      "," ++ newline level ++ quote k ++ ": " ++ prettyAt level x ++ prettyMembers level rest

end

/-- The value over several lines. -/
def pretty (value : Json) : String := prettyAt 0 value

end ImageImports.Json
