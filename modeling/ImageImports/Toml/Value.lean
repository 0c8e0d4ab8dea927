/-!
# `ImageImports.Toml.Value`: values and tables of a TOML text

A TOML text builds its tables piece by piece: by headers, by dotted keys and by inline tables. Each
table remembers how it arose, because that decides what may still be added to it. An inline table is
closed. A table that a header named cannot be named again or extended by dotted keys; a table that
arose on the way to another takes dotted keys, and may be named by a header unless dotted keys made
it.

Numbers and dates are checked where they are read; what remains of them is their kind. A number
that no number type holds remains as such, and spoils a text only where its value is looked at.

Main definitions: `Table.openTable?`, `Table.openElement?` and `Table.assign?`, the three ways to
add to a table. Each has no result where the addition is not allowed.
-/

set_option autoImplicit false

namespace ImageImports.Toml

/-- How a table arose. -/
inductive Origin where
  /-- On the way to a table that a header names. -/
  | implicit
  /-- Named by a header. -/
  | header
  /-- Made by dotted keys. -/
  | dotted
  /-- Written as a value. -/
  | inline
deriving DecidableEq, Repr

/-- The scalars that no setting uses. -/
inductive ScalarKind where
  | integer
  | float
  | datetime
  /-- A number beyond the range of its type. -/
  | excessive
deriving DecidableEq, Repr

/-- A value of a TOML text. -/
inductive Value where
  /-- A text. -/
  | string (value : String)
  /-- A truth value. -/
  | boolean (value : Bool)
  /-- A number or a date. -/
  | scalar (kind : ScalarKind)
  /-- A list of values; one made by headers takes further tables. -/
  | array (fromHeaders : Bool) (items : List Value)
  /-- A table. -/
  | table (origin : Origin) (entries : List (String × Value))

instance : Inhabited Value := ⟨.boolean false⟩

/-- The entries of a table, in the order in which they arose. -/
abbrev Table := List (String × Value)

mutual

/-- Whether all numbers in a value are in the range of their types. -/
def Value.inRange : Value → Bool
  | .scalar kind => kind != .excessive
  | .array _ items => itemsInRange items
  | .table _ entries => entriesInRange entries
  | .string _ => true
  | .boolean _ => true

/-- Whether all numbers in some values are in the range of their types. -/
def itemsInRange : List Value → Bool
  | [] => true
  | item :: rest => item.inRange && itemsInRange rest

/-- Whether all numbers in some entries are in the range of their types. -/
def entriesInRange : List (String × Value) → Bool
  | [] => true
  | (_, value) :: rest => value.inRange && entriesInRange rest

end

namespace Table

/-- The value under a key. -/
def get? (entries : Table) (key : String) : Option Value := entries.lookup key

/-- The entries under other keys than some. -/
def besides (keys : List String) (entries : Table) : Table :=
  entries.filter fun entry => !keys.contains entry.1

/-- Puts a value in the place of the one under the same key, or behind all others. -/
def put (entries : Table) (key : String) (value : Value) : Table :=
  match entries with
  | [] => [(key, value)]
  | (k, v) :: rest => if k = key then (key, value) :: rest else (k, v) :: put rest key value

/-- Changes the table at the end of a path of header names. Tables on the way arise as needed, and
a list of tables stands for its last one. -/
def below? (change : Table → Option Table) : List String → Table → Option Table
  | [], entries => change entries
  | key :: rest, entries =>
      match entries.get? key with
      | none => do
          let inner ← below? change rest []
          return entries ++ [(key, .table .implicit inner)]
      | some (.table .inline _) => none
      | some (.table origin inner) => do
          let inner ← below? change rest inner
          return entries.put key (.table origin inner)
      | some (.array true items) =>
          match items.getLast? with
          | some (.table origin inner) => do
              let inner ← below? change rest inner
              return entries.put key (.array true (items.dropLast ++ [.table origin inner]))
          | _ => none
      | some _ => none

/-- Opens the table with a name: a new one, or one that arose only on the way to others. -/
def openTable? (name : String) (entries : Table) : Option Table :=
  match entries.get? name with
  | none => some (entries ++ [(name, .table .header [])])
  | some (.table .implicit inner) => some (entries.put name (.table .header inner))
  | some _ => none

/-- Opens one more table in the list of tables with a name. -/
def openElement? (name : String) (entries : Table) : Option Table :=
  match entries.get? name with
  | none => some (entries ++ [(name, .array true [.table .header []])])
  | some (.array true items) =>
      some (entries.put name (.array true (items ++ [.table .header []])))
  | some _ => none

/-- Whether a dotted key may pass through a table or end in it. -/
def takesDotted : Origin → Bool
  | .dotted => true
  | .implicit => true
  | _ => false

/-- Gives a value to a dotted key of a table that itself takes entries: the path and the last name.
The tables on the path arise as needed; a name gets a value only once. A list of tables on the way
stands for its last one, to which nothing can be added directly. -/
def assign? (value : Value) (name : String) : List String → Table → Option Table
  | [], entries =>
      match entries.get? name with
      | none => some (entries ++ [(name, value)])
      | some _ => none
  | key :: rest, entries =>
      match entries.get? key with
      | none => do
          let inner ← assign? value name rest []
          return entries ++ [(key, .table .dotted inner)]
      | some (.table origin inner) =>
          if takesDotted origin then do
            let inner ← assign? value name rest inner
            return entries.put key (.table origin inner)
          else none
      | some (.array true items) =>
          match items.getLast? with
          | some (.table origin inner) =>
              if rest.isEmpty then none
              else do
                let inner ← assign? value name rest inner
                return entries.put key (.array true (items.dropLast ++ [.table origin inner]))
          | _ => none
      | some _ => none

end Table

end ImageImports.Toml
