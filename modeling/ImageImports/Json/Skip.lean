import ImageImports.Json.Reader

/-!
# `ImageImports.Json.Skip`: passing over a value that nobody asks for

A value whose contents do not matter is not built up, and only its spelling is checked. So its
numbers may be of any size, its strings may hold half a surrogate pair, and its arrays and objects
may be nested as deep as the text goes: what is open is kept in a list and not by recursion.

Main definition: `Cursor.skipValue`.
-/

set_option autoImplicit false

namespace ImageImports.Json

/-- A container that is open while a value is passed over. -/
inductive Container where
  | list
  | object
deriving DecidableEq, Repr

namespace Container

/-- The character that closes a container. -/
def closing : Container → Char
  | .list => ']'
  | .object => '}'

/-- The complaint about a text that ends inside a container. -/
def endFault : Container → Fault
  | .list => .endOfList
  | .object => .endOfObject

/-- The complaint about something else than a comma or the end behind a part of a container. -/
def commaFault : Container → Fault
  | .list => .expectedListCommaOrEnd
  | .object => .expectedObjectCommaOrEnd

end Container

namespace Cursor

/-! ### Strings -/

/-- Passes over what follows a backslash. Any four hexadecimal digits do. -/
def skipEscape (c : Cursor) : Except ReadError Cursor :=
  match c.head? with
  | none => c.failHere .endOfString
  | some ch =>
      if ch = 'u' then c.next.hexFour.map Prod.snd
      else if ['"', '\\', '/', 'b', 'f', 'n', 'r', 't'].contains ch then .ok c.next
      else c.failPeeked .invalidEscape

/-- Passes over the rest of a string whose opening quotation mark is already read. The first
argument bounds the number of characters. -/
def skipString : Nat → Cursor → Except ReadError Cursor
  | 0, c => c.failHere .endOfString
  | n + 1, c =>
      match c.head? with
      | none => c.failHere .endOfString
      | some '"' => .ok c.next
      | some '\\' => do skipString n (← c.next.skipEscape)
      | some ch =>
          if ch.toNat < 32 then c.failHere .controlCharacter
          else skipString n c.next

/-! ### Numbers -/

/-- Passes over the digits before a decimal point: a zero, or digits that do not start with one. -/
def skipWhole (c : Cursor) : Except ReadError Cursor :=
  match c.head? with
  | none => c.failHere .invalidNumber
  | some ch =>
      if ch = '0' then
        if (c.next.head?.map isDigit).getD false then c.next.failPeeked .invalidNumber
        else .ok c.next
      else if isDigit ch then .ok c.digits.2
      else c.failPeeked .invalidNumber

/-- Passes over digits, of which there has to be one. -/
def skipDigits (c : Cursor) : Except ReadError Cursor :=
  if c.digits.1.isEmpty then c.failPeeked .invalidNumber else .ok c.digits.2

/-- Passes over a decimal point and the digits behind it, if there is a decimal point. -/
def skipFraction (c : Cursor) : Except ReadError Cursor :=
  if c.head? = some '.' then c.next.skipDigits else .ok c

/-- Passes over the exponent, if there is one. -/
def skipExponent (c : Cursor) : Except ReadError Cursor :=
  if c.head? = some 'e' ∨ c.head? = some 'E' then
    let c := c.next
    (if c.head? = some '-' ∨ c.head? = some '+' then c.next else c).skipDigits
  else .ok c

/-- Passes over a number. -/
def skipNumber (c : Cursor) : Except ReadError Cursor := do
  let c ← (if c.head? = some '-' then c.next else c).skipWhole
  let c ← c.skipFraction
  c.skipExponent

/-! ### Values -/

/-- Passes over a value that is no container and starts with the given character. -/
def skipLeaf (limit : Nat) (ch : Char) (c : Cursor) : Except ReadError Cursor :=
  if ch = 'n' then c.next.literal ['u', 'l', 'l']
  else if ch = 't' then c.next.literal ['r', 'u', 'e']
  else if ch = 'f' then c.next.literal ['a', 'l', 's', 'e']
  else if ch = '"' then skipString limit c.next
  else if ch = '-' ∨ isDigit ch then c.skipNumber
  else c.failPeeked .expectedValue

/-- Moves to the next value of a container: at once in a list, behind the key and its colon in an
object. -/
def skipToPart (limit : Nat) (container : Container) (c : Cursor) : Except ReadError Cursor :=
  match container with
  | .list => .ok c
  | .object =>
      let c := c.skipBlanks
      match c.head? with
      | none => c.failPeeked .endOfObject
      | some ch =>
          if ch = '"' then do (← skipString limit c.next).colon
          else c.failPeeked .keyNotString

/-- Closes the containers that end at the cursor and moves to the next value of the innermost one
that stays open. The flag says whether a part of the innermost one has just been passed over. What
stays open is returned; with nothing open, the value is at its end. -/
def skipClosings (limit : Nat) :
    Bool → List Container → Cursor → Except ReadError (List Container × Cursor)
  | _, [], c => .ok ([], c)
  | behindPart, container :: outer, c =>
      let c := c.skipBlanks
      match c.head? with
      | none => c.failPeeked container.endFault
      | some ch =>
          if ch = container.closing then skipClosings limit true outer c.next
          else if behindPart then
            if ch = ',' then do
              .ok (container :: outer, ← c.next.skipToPart limit container)
            else c.failPeeked container.commaFault
          else do
            .ok (container :: outer, ← c.skipToPart limit container)

/-- Passes over a value inside the containers that are open, and over what follows it in them. The
first argument bounds the number of values on the way. -/
def skipParts (limit : Nat) : Nat → List Container → Cursor → Except ReadError Cursor
  | 0, _, c => c.failPeeked .endOfValue
  | n + 1, outer, c => do
      let c := c.skipBlanks
      let (outer, c) ←
        match c.head? with
        | none => c.failPeeked .endOfValue
        | some ch =>
            if ch = '[' then skipClosings limit false (.list :: outer) c.next
            else if ch = '{' then skipClosings limit false (.object :: outer) c.next
            else do skipClosings limit true outer (← skipLeaf limit ch c)
      if outer.isEmpty then .ok c else skipParts limit n outer c

/-- Passes over a value. The limit bounds its length; the length of the whole text is enough. -/
def skipValue (limit : Nat) (c : Cursor) : Except ReadError Cursor := skipParts limit limit [] c

end Cursor

end ImageImports.Json
