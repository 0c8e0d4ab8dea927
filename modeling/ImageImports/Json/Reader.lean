import ImageImports.Json.Cursor

/-!
# `ImageImports.Json.Reader`: reading a JSON value

A value is read as it is written: members stay in their order and repeated keys stay repeated. At
most `maxDepth` arrays and objects may be open at once. The reader of a nested value is handed down
with one level less, so nesting is bounded by the recursion itself; the loops over items, members
and characters are bounded by a limit that the length of the text always satisfies.

Main definitions: `Json.read`, which reads a value as written, and `Json.parse`, which reads it in
normal form.
-/

set_option autoImplicit false

namespace ImageImports.Json

/-- The number of arrays and objects that may be open at once. -/
def maxDepth : Nat := 127

/-- Something that reads a value at a cursor. -/
abbrev ValueReader := Cursor → Except ReadError (Json × Cursor)

namespace Cursor

/-! ### Containers -/

/-- Moves to the next item of an array, or behind the bracket that closes it. -/
def nextItem (first : Bool) (c : Cursor) : Except ReadError (Bool × Cursor) :=
  let c := c.skipBlanks
  match c.head? with
  | none => c.failPeeked .endOfList
  | some ch =>
      if ch = ']' then .ok (false, c.next)
      else if first then .ok (true, c)
      else if ch = ',' then
        let c := c.next.skipBlanks
        match c.head? with
        | none => c.failPeeked .endOfValue
        | some ch => if ch = ']' then c.failPeeked .trailingComma else .ok (true, c)
      else c.failPeeked .expectedListCommaOrEnd

/-- Reads the items of an array whose bracket is already read; those already read are held in
reverse order. -/
def items (item : ValueReader) : Nat → List Json → Cursor → Except ReadError (List Json × Cursor)
  | 0, _, c => c.failPeeked .endOfList
  | n + 1, seen, c => do
      let (more, c) ← c.nextItem seen.isEmpty
      if more then
        let (value, c) ← item c
        items item n (value :: seen) c
      else .ok (seen.reverse, c)

/-- Moves to the quotation mark that opens the next key of an object, or behind the brace that
closes the object. -/
def nextKey (first : Bool) (c : Cursor) : Except ReadError (Bool × Cursor) :=
  let c := c.skipBlanks
  match c.head? with
  | none => c.failPeeked .endOfObject
  | some ch =>
      if ch = '}' then .ok (false, c.next)
      else if first then
        if ch = '"' then .ok (true, c) else c.failPeeked .keyNotString
      else if ch = ',' then
        let c := c.next.skipBlanks
        match c.head? with
        | none => c.failPeeked .endOfValue
        | some ch =>
            if ch = '"' then .ok (true, c)
            else if ch = '}' then c.failPeeked .trailingComma
            else c.failPeeked .keyNotString
      else c.failPeeked .expectedObjectCommaOrEnd

/-- Moves behind the colon between a key and its value. -/
def colon (c : Cursor) : Except ReadError Cursor :=
  let c := c.skipBlanks
  match c.head? with
  | none => c.failPeeked .endOfObject
  | some ch => if ch = ':' then .ok c.next else c.failPeeked .expectedColon

/-- Reads the members of an object whose brace is already read; those already read are held in
reverse order. -/
def members (limit : Nat) (item : ValueReader) :
    Nat → List (String × Json) → Cursor → Except ReadError (List (String × Json) × Cursor)
  | 0, _, c => c.failPeeked .endOfObject
  | n + 1, seen, c => do
      let (more, c) ← c.nextKey seen.isEmpty
      if more then
        let (key, c) ← c.next.string limit
        let c ← c.colon
        let (value, c) ← item c
        members limit item n ((key, value) :: seen) c
      else .ok (seen.reverse, c)

/-! ### Values -/

/-- Reads a value that is no container and starts with the given character. -/
def leaf (limit : Nat) (ch : Char) (c : Cursor) : Except ReadError (Json × Cursor) :=
  if ch = 'n' then do
    let c ← c.next.literal ['u', 'l', 'l']
    .ok (.null, c)
  else if ch = 't' then do
    let c ← c.next.literal ['r', 'u', 'e']
    .ok (.bool true, c)
  else if ch = 'f' then do
    let c ← c.next.literal ['a', 'l', 's', 'e']
    .ok (.bool false, c)
  else if ch = '"' then do
    let (text, c) ← c.next.string limit
    .ok (.string text, c)
  else if ch = '-' ∨ isDigit ch then do
    let (n, c) ← c.number
    .ok (.number n, c)
  else c.failPeeked .expectedValue

/-- Reads a value in which at most `depth` arrays and objects are open at once. -/
def value (limit : Nat) : Nat → ValueReader
  | depth, c =>
      let c := c.skipBlanks
      match c.head? with
      | none => c.failPeeked .endOfValue
      | some ch =>
          if ch = '[' then
            match depth with
            | 0 => c.failPeeked .tooDeep
            | depth + 1 => do
                let (xs, c) ← items (value limit depth) limit [] c.next
                .ok (.array xs, c)
          else if ch = '{' then
            match depth with
            | 0 => c.failPeeked .tooDeep
            | depth + 1 => do
                let (ms, c) ← members limit (value limit depth) limit [] c.next
                .ok (.object ms, c)
          else leaf limit ch c

/-- Accepts the end of the text, with blanks before it. -/
def finish (c : Cursor) : Except ReadError Unit :=
  let c := c.skipBlanks
  if c.rest.isEmpty then .ok () else c.failPeeked .trailingCharacters

end Cursor

/-- Bounds every loop over the characters, items or members of a text. -/
def loopLimit (text : String) : Nat := text.toList.length + 1

/-- Reads the value that a text consists of, as it is written. -/
def read (text : String) : Except ReadError Json := do
  let (value, c) ← Cursor.value (loopLimit text) maxDepth (Cursor.ofString text)
  c.finish
  .ok value

/-- Reads the value that a text consists of, in normal form. -/
def parse (text : String) : Except ReadError Json :=
  return (← read text).normalize

end ImageImports.Json
