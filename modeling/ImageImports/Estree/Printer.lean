import ImageImports.Estree.Basic

/-!
# `ImageImports.Estree.Printer`: the JSON form of program fragments

The derived writers of `EstreeData` and of the types in it. Every typed fragment is written as an
object with its type first, then its typed fields, then its further members. An absent optional
field is not written at all.
-/

set_option autoImplicit false

namespace ImageImports

/-- A member that is written only where it has a value. It serves all the fields that are left out
and not written as null. -/
def Members.whenSome {α : Type} (key : String) (write : α → Json) : Option α → Members
  | some a => [(key, write a)]
  | none => []

namespace Estree

/-- The JSON form of a name. -/
def Identifier.toJson (identifier : Identifier) : Json :=
  .object ([("type", .string "Identifier"), ("name", .string identifier.name)]
    ++ identifier.others.entries)

/-- The JSON form of a string literal. -/
def StringLiteral.toJson (literal : StringLiteral) : Json :=
  .object ([("type", .string "Literal"), ("value", .string literal.value)]
    ++ Members.whenSome "raw" .string literal.raw ++ literal.others.entries)

/-- The JSON form of a name bound by an import. -/
def ImportSpecifier.toJson : ImportSpecifier → Json
  | .whole binding others =>
      .object ([("type", .string "ImportDefaultSpecifier"), ("local", binding.toJson)]
        ++ others.entries)
  | .star binding others =>
      .object ([("type", .string "ImportNamespaceSpecifier"), ("local", binding.toJson)]
        ++ others.entries)
  | .named imported binding others =>
      .object ([("type", .string "ImportSpecifier"), ("imported", imported.toJson),
        ("local", binding.toJson)] ++ others.entries)

/-- The JSON form of a statement. -/
def Statement.toJson : Statement → Json
  | .importDeclaration specifiers source others =>
      .object ([("type", .string "ImportDeclaration"),
        ("specifiers", .array (specifiers.map ImportSpecifier.toJson)),
        ("source", source.toJson)] ++ others.entries)
  | .expression identifier others =>
      .object ([("type", .string "ExpressionStatement"), ("expression", identifier.toJson)]
        ++ others.entries)

/-- The name of a way to run a program. -/
def SourceType.name : SourceType → String
  | .module => "module"
  | .script => "script"

/-- The JSON form of a program. Comments that were not recorded are left out, and recorded ones are
written as they are. -/
def Program.toJson (program : Program) : Json :=
  .object ([("type", .string "Program"), ("sourceType", .string program.sourceType.name),
      ("body", .array (program.body.map Statement.toJson))]
    ++ Members.whenSome "comments" (fun comments => .array (comments.map CanonicalJson.value))
      program.comments
    ++ program.others.entries)

/-- The JSON form of an embedded program. An untyped one is written as the value that it is. -/
def Fragment.toJson : Fragment → Json
  | .program p => p.toJson
  | .untyped v => v.value

/-- The JSON form of an embedding. It has no type of its own, so none is written. -/
def Embedding.toJson (embedding : Embedding) : Json :=
  .object (Members.whenSome "estree" Fragment.toJson embedding.fragment
    ++ embedding.others.entries)

end Estree

end ImageImports
