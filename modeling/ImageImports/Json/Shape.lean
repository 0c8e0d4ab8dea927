import ImageImports.Json.Skip
import ImageImports.Json.Record

/-!
# `ImageImports.Json.Shape`: reading a text as a value of a known shape

Where the shape of a value is known beforehand, the reader checks it while it goes through the text,
so its complaints can say where they arise. A complaint about a single value stands behind that
value, or before it where it is a container. Some complaints arise between the parts of a container,
or after a part was read as a whole: a repeated or missing member, or a part that turns out not to
fit. Such a complaint is *loose*; it gets its place from the container around it, which first moves
on to its own end as far as it can, and it has no place where there is no container.

Main definition: `readAs`, which reads a text of a given shape. The result is the value as it is
written; building a typed value from it is the reader's own business.
-/

set_option autoImplicit false

namespace ImageImports.Json

/-- Whether a field has to be there. -/
inductive Presence where
  /-- The field has to be there and must fit. -/
  | required
  /-- The field may be absent or null. -/
  | nullable
  /-- The field may be absent. -/
  | defaulted
deriving DecidableEq

/-- What a reader expects while it goes through a text. -/
inductive Shape where
  /-- A string. -/
  | text
  /-- A truth value. -/
  | boolean
  /-- One of some names, alone or as the only key of an object that holds null. -/
  | choice (names : List String)
  /-- A list of values of a shape. -/
  | list (item : Shape)
  /-- An object with the given fields. An open record keeps all other members; a closed one
  passes over them, and may also be given as the list of its fields. -/
  | record (expected : String) (fields : List (String × Presence × Shape)) (isOpen : Bool)
  /-- A value whose member `type` is one of some names, judged when it is read as a whole. -/
  | tagged (name : String) (variants : List String) (judge : Json → Option Mismatch)
  /-- Any value, judged when it is read as a whole. -/
  | judged (judge : Json → Option Mismatch)

/-- Why a text does not have a shape. -/
inductive Failure where
  /-- An error that has its place. -/
  | settled (cause : ReadError)
  /-- A mismatch that gets its place from the container around it. -/
  | loose (cause : Mismatch) (place : Cursor)

/-- The error at the top of a text, where no container is left to give it a place. -/
def Failure.error : Failure → ReadError
  | .settled cause => cause
  | .loose cause _ => .mismatch cause none

/-- The mismatch that a typed reader complains about, if it does. -/
def complaint {α : Type} : Except Mismatch α → Option Mismatch
  | .ok _ => none
  | .error cause => some cause

namespace Cursor

/-- A step of a plain reader inside a reader of shapes. -/
def settled {α : Type} (step : Except ReadError α) : Except Failure α :=
  step.mapError .settled

/-- A mismatch at the cursor. -/
def mismatch {α : Type} (c : Cursor) (cause : Mismatch) : Except Failure α :=
  .error (.settled (.mismatch cause (some c.here)))

/-- How far a list moves on to its end when one of its items does not fit. -/
def leaveList (c : Cursor) : Cursor :=
  let c := c.skipBlanks
  match c.head? with
  | some ch => if ch = ']' then c.next else if ch = ',' then c.next.skipBlanks else c
  | none => c

/-- How far an object moves on to its end when one of its members does not fit. -/
def leaveObject (c : Cursor) : Cursor :=
  let c := c.skipBlanks
  match c.head? with
  | some ch => if ch = '}' then c.next else c
  | none => c

/-- Gives a loose mismatch its place. -/
def settle {α : Type} (leave : Cursor → Cursor) : Except Failure α → Except Failure α
  | .error (.loose cause c) => (leave c).mismatch cause
  | other => other

/-- The complaint about a value that is not of the expected kind. -/
def unexpected {α : Type} (limit : Nat) (c : Cursor) (ch : Char) (expected : String) :
    Except Failure α :=
  if ch = '[' then c.mismatch (.wrongType .array expected)
  else if ch = '{' then c.mismatch (.wrongType .object expected)
  else
    match leaf limit ch c with
    | .ok (value, c) => c.mismatch (.wrongType (found value) expected)
    | .error cause => .error (.settled cause)

/-- The first character of a value, and the cursor at it. -/
def startOfValue (c : Cursor) : Except Failure (Char × Cursor) :=
  let c := c.skipBlanks
  match c.head? with
  | none => settled (c.failPeeked .endOfValue)
  | some ch => .ok (ch, c)

/-- Reads a string. -/
def textShape (limit : Nat) (expected : String) (c : Cursor) :
    Except Failure (String × Cursor) := do
  let (ch, c) ← c.startOfValue
  if ch = '"' then settled (c.next.string limit) else unexpected limit c ch expected

/-- Reads one of some names as a string. -/
def nameShape (limit : Nat) (names : List String) (c : Cursor) :
    Except Failure (String × Cursor) := do
  let (name, c) ← textShape limit "variant identifier" c
  if names.contains name then .ok (name, c) else c.mismatch (.unknownVariant name names)

/-- Reads null. -/
def nullShape (limit : Nat) (expected : String) (c : Cursor) : Except Failure Cursor := do
  let (ch, c) ← c.startOfValue
  if ch = 'n' then settled (c.next.literal ['u', 'l', 'l']) else unexpected limit c ch expected

/-- Reads one of some names, alone or as the only key of an object. -/
def choiceShape (limit depth : Nat) (names : List String) (c : Cursor) :
    Except Failure (Json × Cursor) := do
  let (ch, c) ← c.startOfValue
  if ch = '"' then
    let (name, c) ← nameShape limit names c
    .ok (.string name, c)
  else if ch = '{' then
    if depth = 0 then settled (c.failPeeked .tooDeep)
    else
      let (name, c) ← nameShape limit names c.next
      let c ← settled c.colon
      let c ← nullShape limit "unit" c
      let c := c.skipBlanks
      match c.head? with
      | none => settled (c.failHere .endOfObject)
      | some ch =>
          if ch = '}' then .ok (.string name, c.next) else settled (c.failHere .expectedValue)
  else settled (c.failPeeked .expectedValue)

/-! ### Containers -/

/-- Something that reads a value of some shape at a cursor. -/
abbrev ShapeReader := Cursor → Except Failure (Json × Cursor)

/-- Reads the items of a list whose bracket is already read. -/
def itemShapes (item : ShapeReader) : Nat → List Json → ShapeReader
  | 0, _, c => settled (c.failPeeked .endOfList)
  | n + 1, seen, c => do
      let (more, c) ← settled (c.nextItem seen.isEmpty)
      if more then
        let (value, c) ← settle leaveList (item c)
        itemShapes item n (value :: seen) c
      else .ok (.array seen.reverse, c)

/-- Reads the members of an object whose brace is already read. A key that may stand only once is
refused when it comes back; the reader of a value may depend on its key. -/
def memberShapes (limit : Nat) (once : String → Bool) (item : String → ShapeReader) :
    Nat → List (String × Json) → Cursor → Except Failure (List (String × Json) × Cursor)
  | 0, _, c => settled (c.failPeeked .endOfObject)
  | n + 1, seen, c => do
      let (more, c) ← settled (c.nextKey seen.isEmpty)
      if more then
        let (key, c) ← settled (c.next.string limit)
        if once key && Members.hasKey seen key then
          c.leaveObject.mismatch (.duplicateField key)
        else
          let c ← settled c.colon
          let (value, c) ← settle leaveObject (item key c)
          memberShapes limit once item n ((key, value) :: seen) c
      else .ok (seen.reverse, c)

/-- Reads a field that may be null. -/
def nullableShape (item : ShapeReader) (c : Cursor) : Except Failure (Json × Cursor) :=
  let c := c.skipBlanks
  if c.head? = some 'n' then do
    let c ← settled (c.next.literal ['u', 'l', 'l'])
    .ok (.null, c)
  else item c

/-- Passes over a value that a record does not keep. It counts as null. -/
def skipShape (limit : Nat) : ShapeReader := fun c => do
  let c ← settled (c.skipValue limit)
  .ok (.null, c)

/-- Reads the fields of a record given as a list, up to the bracket that closes it. -/
def fieldShapes : List ShapeReader → List Json → Cursor → Except Failure (List Json × Cursor)
  | [], seen, c => .ok (seen.reverse, c)
  | item :: rest, seen, c => do
      let (more, behind) ← settled (c.nextItem seen.isEmpty)
      if more then
        let (value, c) ← settle leaveList (item behind)
        fieldShapes rest (value :: seen) c
      else .ok (seen.reverse, c)

/-- Accepts the bracket that closes a list. -/
def endOfListShape (c : Cursor) : Except Failure Cursor :=
  let c := c.skipBlanks
  match c.head? with
  | none => settled (c.failPeeked .endOfList)
  | some ch =>
      if ch = ']' then .ok c.next
      else if ch = ',' then
        let c := c.next.skipBlanks
        if c.head? = some ']' then settled (c.failPeeked .trailingComma)
        else settled (c.failPeeked .trailingCharacters)
      else settled (c.failPeeked .trailingCharacters)

/-- Judges a value that is read as a whole. -/
def judge (value : Json) (c : Cursor) (judgement : Option Mismatch) :
    Except Failure (Json × Cursor) :=
  match judgement with
  | none => .ok (value, c)
  | some cause => .error (.loose cause c)

/-- The first required field that is absent. -/
def missing? (fields : List (String × Presence × Shape)) (members : Members) : Option String :=
  (fields.find? fun (name, presence, _) =>
    presence == .required && !members.hasKey name).map Prod.fst

/-- Reads a value of a shape in which at most `depth` arrays and objects are open at once. -/
def shape (limit : Nat) : Nat → Shape → ShapeReader
  | _, .text, c => do
      let (text, c) ← textShape limit "a string" c
      .ok (.string text, c)
  | _, .boolean, c => do
      let (ch, c) ← c.startOfValue
      if ch = 't' ∨ ch = 'f' then settled (leaf limit ch c) else unexpected limit c ch "a boolean"
  | depth, .choice names, c => choiceShape limit depth names c
  | depth, .judged judgement, c => do
      let (value, c) ← settled (value limit depth c)
      judge value c (judgement value)
  | depth, .list item, c => do
      let (ch, c) ← c.startOfValue
      if ch = '[' then
        match depth with
        | 0 => settled (c.failPeeked .tooDeep)
        | depth + 1 => itemShapes (shape limit depth item) limit [] c.next
      else unexpected limit c ch "a sequence"
  | depth, .record expected fields isOpen, c => do
      let (ch, c) ← c.startOfValue
      if ch = '{' then
        match depth with
        | 0 => settled (c.failPeeked .tooDeep)
        | depth + 1 => do
            let item := fun key =>
              match fields.lookup key with
              | some (.nullable, field) => nullableShape (shape limit depth field)
              | some (_, field) => shape limit depth field
              | none => if isOpen then fun c => settled (value limit depth c) else skipShape limit
            let once := fun key => (fields.lookup key).isSome
            let (members, c) ← memberShapes limit once item limit [] c.next
            match missing? fields members with
            | some name => c.mismatch (.missingField name)
            | none => .ok (.object members, c)
      else if ch = '[' ∧ ¬ isOpen then
        match depth with
        | 0 => settled (c.failPeeked .tooDeep)
        | depth + 1 => do
            let items := fields.map fun (_, presence, field) =>
              if presence = .nullable then nullableShape (shape limit depth field)
              else shape limit depth field
            let (values, c) ← fieldShapes items [] c.next
            let c ← endOfListShape c
            .ok (.array values, c)
      else unexpected limit c ch expected
  | depth, .tagged name variants judgement, c => do
      let (ch, c) ← c.startOfValue
      let tag : ShapeReader := fun c => do
        let (text, c) ← nameShape limit variants c
        .ok (.string text, c)
      if ch = '{' then
        match depth with
        | 0 => settled (c.failPeeked .tooDeep)
        | depth + 1 => do
            let item := fun key =>
              if key = "type" then tag else fun c => settled (value limit depth c)
            let (members, c) ← memberShapes limit (· == "type") item limit [] c.next
            if Members.hasKey members "type" then
              judge (.object members) c (judgement (.object members))
            else c.mismatch (.missingField "type")
      else if ch = '[' then
        match depth with
        | 0 => settled (c.failPeeked .tooDeep)
        | depth + 1 => do
            let (more, start) ← settled (c.next.nextItem true)
            if more then
              let (first, c) ← settle leaveList (tag start)
              let (values, c) ← itemShapes (fun c => settled (value limit depth c)) limit [first] c
              judge values c (judgement values)
            else start.mismatch (.missingField "type")
      else unexpected limit c ch ("internally tagged enum " ++ name)

end Cursor

/-- Reads a text of a shape: the value as it is written. -/
def readAs (shape : Shape) (text : String) : Except ReadError Json := do
  let (value, c) ← (Cursor.shape (loopLimit text) maxDepth shape (Cursor.ofString text)).mapError
    Failure.error
  c.finish
  .ok value

end ImageImports.Json
