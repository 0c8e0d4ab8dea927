import ImageImports.Proofs.Image.Bindings
import ImageImports.Proofs.Json.Escaping
import ImageImports.Proofs.Json.Spelling

/-!
# `ImageImports.Proofs.Image.Statement`: the two forms of an import statement

The statement that a pass puts in front of a document is there twice: as a text, which ends up in a
program as it stands, and as the syntax tree of that text. The address in it comes from the document
and may hold anything. Still both forms name the same source: the literal of the tree is written as
in the text (`defaultImport_statement`), it cannot end before its last quotation mark
(`Json.Enclosed`), and it spells the address. The name in the statement is made of word characters
(`isWordChar_of_mem_importName`), so nothing of the address is left that could end the name either.
-/

set_option autoImplicit false

namespace ImageImports

open Mdast

/-! ### The literal -/

/-- A quoted text is parsed as the string it was made of. -/
theorem parse_quote (text : String) : Json.parse (Json.quote text) = .ok (.string text) := by
  have hfits : (Json.string text).Fits 0 := by simp
  exact (Json.parse_print false hfits).1 (by simp)

/-! ### The statement -/

/-- The statement that imports an address under its name reads the same as a text and as a program:
the text ends with the literal of the program as it is written. The literal stands between quotation
marks and has neither a control character nor a mark that is not escaped between them; it is the
address as a quoted string. The program binds the name to the address and nothing else. -/
theorem defaultImport_statement (index : Nat) (source : String) :
    ∃ quoted inner program,
      Node.defaultImport (importName index source) source
          = .leaf (.esm ("import " ++ importName index source ++ " from " ++ quoted)
              (some (.ofProgram program))) .empty
        ∧ (∃ specifiers literal others,
            program.body = [.importDeclaration specifiers literal others]
              ∧ literal.value = source ∧ literal.raw = some quoted)
        ∧ quoted.toList = '"' :: (inner ++ ['"'])
        ∧ Json.Enclosed inner
        ∧ Json.parse quoted = .ok (.string source)
        ∧ program.defaultImports = [(importName index source, source)]
        ∧ ∀ c ∈ (importName index source).toList, isWordChar c = true := by
  refine ⟨Json.quote source, Json.escapeChars source.toList,
    .defaultImport (importName index source) source, rfl, ⟨_, _, _, rfl, rfl, rfl⟩, ?_,
    Json.enclosed_escapeChars source.toList, parse_quote source, rfl,
    fun c hc => isWordChar_of_mem_importName hc⟩
  rw [Json.quote, String.toList_ofList, Json.quoteChars]

end ImageImports
