import ImageImports.Estree.Basic
import ImageImports.Json.Record

/-!
# `ImageImports.Estree.Reader`: program fragments from their JSON form

These are the derived readers of `EstreeData` and of the types in it. Each one takes the members
that its type knows and keeps the others as further members. A value that does not fit the typed
form of a program is kept as it is (`Fragment.ofJson`), so reading an embedded program never fails.

The types of statements and specifiers may be named by position only inside a value that is read as
a whole before its type is known; `TagForm` says which case it is.
-/

set_option autoImplicit false

namespace ImageImports.Estree

open Json

/-- Reads a name (`Identifier`). The type of the object is dropped without a look at it, so an
object of another type counts as a name if it has one. -/
def Identifier.ofJson (value : Json) : Except Mismatch Identifier := do
  let members ← readRecord "Identifier" value
  let name ← (members.required "name" readString).settle
  .ok { name, others := .ofMembers ["name"] members }

/-- Reads a string literal (`Literal`). Literals of other kinds have no text for their value and do
not fit. -/
def StringLiteral.ofJson (value : Json) : Except Mismatch StringLiteral := do
  let members ← readRecord "Literal" value
  let (text, raw) ←
    ((members.required "value" readString).both (members.optional "raw" readString)).settle
  .ok { value := text, raw, others := .ofMembers ["value", "raw"] members }

/-- The three kinds of names that an import binds. -/
inductive SpecifierKind where
  | whole
  | star
  | named

/-- The types of specifiers, in the order of their positions. -/
def SpecifierKind.names : List (String × SpecifierKind) :=
  [("ImportDefaultSpecifier", .whole), ("ImportNamespaceSpecifier", .star),
    ("ImportSpecifier", .named)]

/-- Reads a name bound by an import (`ImportSpecifier`). Its type tells which of the three kinds it
is. -/
def ImportSpecifier.ofJson (form : TagForm) (value : Json) : Except Mismatch ImportSpecifier := do
  let (kind, content) ← readTagged "ImportSpecifier" form SpecifierKind.names value
  match kind with
  | .whole =>
      let members ← readRecord "LocalSpecifier" content
      let binding ← (members.required "local" Identifier.ofJson).settle
      .ok (.whole binding (.ofMembers ["local"] members))
  | .star =>
      let members ← readRecord "LocalSpecifier" content
      let binding ← (members.required "local" Identifier.ofJson).settle
      .ok (.star binding (.ofMembers ["local"] members))
  | .named =>
      let members ← readRecord "NamedSpecifier" content
      let (imported, binding) ←
        ((members.required "imported" Identifier.ofJson).both
          (members.required "local" Identifier.ofJson)).settle
      .ok (.named imported binding (.ofMembers ["imported", "local"] members))

/-- The two kinds of statements. -/
inductive StatementKind where
  | importDeclaration
  | expression

/-- The types of statements, in the order of their positions. -/
def StatementKind.names : List (String × StatementKind) :=
  [("ImportDeclaration", .importDeclaration), ("ExpressionStatement", .expression)]

/-- Reads a statement. What stands inside it was read before the type of the statement was known,
so types of specifiers may be positions. -/
def Statement.ofJson (form : TagForm) (value : Json) : Except Mismatch Statement := do
  let (kind, content) ← readTagged "Statement" form StatementKind.names value
  match kind with
  | .importDeclaration =>
      let members ← readRecord "ImportDeclaration" content
      let (specifiers, source) ←
        ((members.required "specifiers"
            (readList (ImportSpecifier.ofJson .nameOrPosition))).both
          (members.required "source" StringLiteral.ofJson)).settle
      .ok (.importDeclaration specifiers source (.ofMembers ["specifiers", "source"] members))
  | .expression =>
      let members ← readRecord "ExpressionStatement" content
      let identifier ← (members.required "expression" Identifier.ofJson).settle
      .ok (.expression identifier (.ofMembers ["expression"] members))

/-- The two ways to run a program. -/
def SourceType.names : List (String × SourceType) := [("module", .module), ("script", .script)]

/-- Reads a program (`Program`). It fits only if every one of its statements does. -/
def Program.ofJson (form : TagForm) (value : Json) : Except Mismatch Program := do
  let members ← readRecord "Program" value
  let ((sourceType, body), comments) ←
    (((members.required "sourceType" (readChoice SourceType.names isNull)).both
        (members.required "body" (readList (Statement.ofJson form)))).both
      (members.optional "comments" (readList fun v => .ok (CanonicalJson.ofJson v)))).settle
  .ok { sourceType, body, comments,
        others := .ofMembers ["sourceType", "body", "comments"] members }

/-- Reads an embedded program (`Estree`): in typed form where it fits, as it is where it does not.
So this cannot fail. -/
def Fragment.ofJson (value : Json) : Fragment :=
  match Program.ofJson .nameOrPosition value with
  | .ok p => .program p
  | .error _ => .untyped (.ofJson value)

/-- Reads an embedding (`EstreeData`). A null stands for no program. -/
def Embedding.ofJson (value : Json) : Except Mismatch Embedding := do
  let members ← readRecord "EstreeData" value
  let fragment ← (members.optional "estree" fun v => .ok (Fragment.ofJson v)).settle
  .ok { fragment, others := .ofMembers ["estree"] members }

end ImageImports.Estree
