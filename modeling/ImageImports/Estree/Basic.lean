import ImageImports.OtherMembers
import ImageImports.Json.Quoted

/-!
# `ImageImports.Estree.Basic`: program fragments embedded in a document

A document embeds programs behind `import` statements and expressions. Only the fragments that a
default import and a reference to a name need are typed here; every other program stays the JSON
value it is (`Fragment.untyped`).

Main definitions: `Program.defaultImport`, which is `default_import`, `Program.reference`, which is
`identifier_expression`, and `Program.defaultImports`, which is `default_imports` and gives the
names that a program binds by default imports.
-/

set_option autoImplicit false

namespace ImageImports.Estree

/-- A name (`Identifier`). Its type is written and not checked where it is read. -/
structure Identifier where
  /-- The name itself. -/
  name : String
  /-- Its further members. -/
  others : OtherMembers := .empty
deriving BEq

/-- A string literal (`Literal`). -/
structure StringLiteral where
  /-- The string that the literal stands for. -/
  value : String
  /-- The literal as it is written, if known. -/
  raw : Option String
  /-- Its further members. -/
  others : OtherMembers := .empty
deriving BEq

/-- A name bound by an import (`ImportSpecifier`). -/
inductive ImportSpecifier where
  /-- Binds the default export. -/
  | whole (binding : Identifier) (others : OtherMembers)
  /-- Binds the module as a whole. -/
  | star (binding : Identifier) (others : OtherMembers)
  /-- Binds one named export. -/
  | named (imported binding : Identifier) (others : OtherMembers)
deriving BEq

/-- A statement of a program (`Statement`). Statements of other kinds make the whole program an
untyped one. -/
inductive Statement where
  /-- An import of names from a source. -/
  | importDeclaration (specifiers : List ImportSpecifier) (source : StringLiteral)
      (others : OtherMembers)
  /-- A reference to a name that stands alone. -/
  | expression (identifier : Identifier) (others : OtherMembers)
deriving BEq

/-- The two ways to run a program. -/
inductive SourceType where
  | module
  | script
deriving BEq, DecidableEq

/-- A program in typed form (`Program`). -/
structure Program where
  /-- How the program is run. -/
  sourceType : SourceType
  /-- Its statements. -/
  body : List Statement
  /-- Its comments, if they are recorded. -/
  comments : Option (List CanonicalJson)
  /-- Its further members. -/
  others : OtherMembers := .empty
deriving BEq

/-- An embedded program (`Estree`): typed if it can be, and otherwise the value that it is. -/
inductive Fragment where
  /-- A program in typed form. -/
  | program (program : Program)
  /-- A program that has no typed form, as it is. -/
  | untyped (value : CanonicalJson)
deriving BEq

/-- The member `data` of a node that embeds a program (`EstreeData`). -/
structure Embedding where
  /-- The program, if there is one. -/
  fragment : Option Fragment
  /-- Its further members. -/
  others : OtherMembers := .empty
deriving BEq

/-- The literal for a string, written the way JSON quotes it (`string` of `Literal`). -/
def StringLiteral.quoted (value : String) : StringLiteral :=
  { value, raw := some (Json.quote value) }

namespace Program

/-- The program `import binding from "source"` (`default_import`). -/
def defaultImport (binding source : String) : Program where
  sourceType := .module
  body := [.importDeclaration [.whole { name := binding } .empty] (.quoted source) .empty]
  comments := none

/-- The program that consists of a reference to a name (`identifier_expression`). -/
def reference (name : String) : Program where
  sourceType := .module
  body := [.expression { name } .empty]
  comments := some []

/-- The names that a statement binds by default imports, each with the source it is bound to. -/
def statementImports : Statement → List (String × String)
  | .importDeclaration specifiers source _ =>
      specifiers.filterMap fun
        | .whole binding _ => some (binding.name, source.value)
        | _ => none
  | .expression .. => []

/-- The names that a program binds by default imports, each with the source it is bound to
(`default_imports`). Imports of other kinds are passed over. -/
def defaultImports (program : Program) : List (String × String) :=
  program.body.flatMap statementImports

end Program

/-- The embedding of a program. -/
def Embedding.ofProgram (program : Program) : Embedding :=
  { fragment := some (.program program) }

end ImageImports.Estree
