import ImageImports.Estree.Reader
import ImageImports.Proofs.Json.Record

/-!
# `ImageImports.Proofs.Estree.Content`: what program fragments are read from

A fragment is read from an object: each typed field from the member under its name, and the other
members are all that are left. For each type of fragment a predicate says so of a value and a
fragment, `Identifier.ReadFrom` and those after it, and its reader gives no other fragments
(`Identifier.readFrom_of_ofJson` and those after it). Where the type is told by a tag, the members
are those that stand beside the tag.

What is shown of fragments that were read is shown by cases on these predicates, without opening a
reader again.
-/

set_option autoImplicit false

namespace ImageImports.Estree

open Json

/-! ### Names and literals -/

/-- A name is read from an object with a text for a name. The type of the object plays no part. -/
inductive Identifier.ReadFrom : Json → Identifier → Prop where
  | intro {members : Members} {name : String}
      (hname : members.required "name" readString = .ok name) :
      ReadFrom (.object members) { name, others := .ofMembers ["name"] members }

/-- Reading a name says what the object held. Later proofs go by cases on this and do not open the
reader. -/
theorem Identifier.readFrom_of_ofJson {value : Json} {identifier : Identifier}
    (h : Identifier.ofJson value = .ok identifier) : identifier.ReadFrom value := by
  obtain ⟨members, hrecord, hrest⟩ := bind_ok_iff.1 h
  obtain rfl := readRecord_ok hrecord
  obtain ⟨name, hname, hresult⟩ := bind_ok_iff.1 hrest
  cases hresult
  exact .intro (Checked.settle_ok_iff.1 hname)

/-- A literal is read from its value and the text that it is written as, if there is one. -/
inductive StringLiteral.ReadFrom : Json → StringLiteral → Prop where
  | intro {members : Members} {value : String} {raw : Option String}
      (hvalue : members.required "value" readString = .ok value)
      (hraw : members.optional "raw" readString = .ok raw) :
      ReadFrom (.object members) { value, raw, others := .ofMembers ["value", "raw"] members }

/-- Reading a string literal says what the object held. -/
theorem StringLiteral.readFrom_of_ofJson {value : Json} {literal : StringLiteral}
    (h : StringLiteral.ofJson value = .ok literal) : literal.ReadFrom value := by
  obtain ⟨members, hrecord, hrest⟩ := bind_ok_iff.1 h
  obtain rfl := readRecord_ok hrecord
  obtain ⟨⟨text, raw⟩, hfields, hresult⟩ := bind_ok_iff.1 hrest
  obtain ⟨htext, hraw⟩ := Checked.both_ok_iff.1 (Checked.settle_ok_iff.1 hfields)
  cases hresult
  exact .intro htext hraw

/-! ### Imports -/

/-- A name bound by an import is read from a tag and the names beside it, with one case for each of
the three types. -/
inductive ImportSpecifier.ReadFrom (form : TagForm) (value : Json) : ImportSpecifier → Prop where
  | whole {members : Members} {binding : Identifier}
      (htagged : readTagged "ImportSpecifier" form SpecifierKind.names value
        = .ok (.whole, .object members))
      (hbinding : members.required "local" Identifier.ofJson = .ok binding) :
      ReadFrom form value (.whole binding (.ofMembers ["local"] members))
  | star {members : Members} {binding : Identifier}
      (htagged : readTagged "ImportSpecifier" form SpecifierKind.names value
        = .ok (.star, .object members))
      (hbinding : members.required "local" Identifier.ofJson = .ok binding) :
      ReadFrom form value (.star binding (.ofMembers ["local"] members))
  | named {members : Members} {imported binding : Identifier}
      (htagged : readTagged "ImportSpecifier" form SpecifierKind.names value
        = .ok (.named, .object members))
      (himported : members.required "imported" Identifier.ofJson = .ok imported)
      (hbinding : members.required "local" Identifier.ofJson = .ok binding) :
      ReadFrom form value (.named imported binding (.ofMembers ["imported", "local"] members))

/-- Reading a name bound by an import says which type the object gave and which names. -/
theorem ImportSpecifier.readFrom_of_ofJson {form : TagForm} {value : Json}
    {specifier : ImportSpecifier} (h : ImportSpecifier.ofJson form value = .ok specifier) :
    specifier.ReadFrom form value := by
  obtain ⟨⟨kind, content⟩, htagged, hcontent⟩ := bind_ok_iff.1 h
  cases kind with
  | whole =>
      obtain ⟨members, hrecord, hrest⟩ := bind_ok_iff.1 hcontent
      obtain rfl := readRecord_ok hrecord
      obtain ⟨binding, hbinding, hresult⟩ := bind_ok_iff.1 hrest
      cases hresult
      exact .whole htagged (Checked.settle_ok_iff.1 hbinding)
  | star =>
      obtain ⟨members, hrecord, hrest⟩ := bind_ok_iff.1 hcontent
      obtain rfl := readRecord_ok hrecord
      obtain ⟨binding, hbinding, hresult⟩ := bind_ok_iff.1 hrest
      cases hresult
      exact .star htagged (Checked.settle_ok_iff.1 hbinding)
  | named =>
      obtain ⟨members, hrecord, hrest⟩ := bind_ok_iff.1 hcontent
      obtain rfl := readRecord_ok hrecord
      obtain ⟨⟨imported, binding⟩, hboth, hresult⟩ := bind_ok_iff.1 hrest
      obtain ⟨himported, hbinding⟩ := Checked.both_ok_iff.1 (Checked.settle_ok_iff.1 hboth)
      cases hresult
      exact .named htagged himported hbinding

/-! ### Statements and programs -/

/-- A statement is read from a tag and the parts beside it. There are two types of statements that
have a typed form. -/
inductive Statement.ReadFrom (form : TagForm) (value : Json) : Statement → Prop where
  | importDeclaration {members : Members} {specifiers : List ImportSpecifier}
      {source : StringLiteral}
      (htagged : readTagged "Statement" form StatementKind.names value
        = .ok (.importDeclaration, .object members))
      (hspecifiers : members.required "specifiers"
        (readList (ImportSpecifier.ofJson .nameOrPosition)) = .ok specifiers)
      (hsource : members.required "source" StringLiteral.ofJson = .ok source) :
      ReadFrom form value
        (.importDeclaration specifiers source (.ofMembers ["specifiers", "source"] members))
  | expression {members : Members} {identifier : Identifier}
      (htagged : readTagged "Statement" form StatementKind.names value
        = .ok (.expression, .object members))
      (hidentifier : members.required "expression" Identifier.ofJson = .ok identifier) :
      ReadFrom form value (.expression identifier (.ofMembers ["expression"] members))

/-- Reading a statement says which type the object gave and what stood beside it. -/
theorem Statement.readFrom_of_ofJson {form : TagForm} {value : Json} {statement : Statement}
    (h : Statement.ofJson form value = .ok statement) : statement.ReadFrom form value := by
  obtain ⟨⟨kind, content⟩, htagged, hcontent⟩ := bind_ok_iff.1 h
  cases kind with
  | importDeclaration =>
      obtain ⟨members, hrecord, hrest⟩ := bind_ok_iff.1 hcontent
      obtain rfl := readRecord_ok hrecord
      obtain ⟨⟨specifiers, source⟩, hboth, hresult⟩ := bind_ok_iff.1 hrest
      obtain ⟨hspecifiers, hsource⟩ := Checked.both_ok_iff.1 (Checked.settle_ok_iff.1 hboth)
      cases hresult
      exact .importDeclaration htagged hspecifiers hsource
  | expression =>
      obtain ⟨members, hrecord, hrest⟩ := bind_ok_iff.1 hcontent
      obtain rfl := readRecord_ok hrecord
      obtain ⟨identifier, hidentifier, hresult⟩ := bind_ok_iff.1 hrest
      cases hresult
      exact .expression htagged (Checked.settle_ok_iff.1 hidentifier)

/-- A program is read from the way to run it, its statements and its comments, if there are any. -/
inductive Program.ReadFrom (form : TagForm) : Json → Program → Prop where
  | intro {members : Members} {sourceType : SourceType} {body : List Statement}
      {comments : Option (List CanonicalJson)}
      (hsource : members.required "sourceType" (readChoice SourceType.names isNull)
        = .ok sourceType)
      (hbody : members.required "body" (readList (Statement.ofJson form)) = .ok body)
      (hcomments : members.optional "comments" (readList fun v => .ok (CanonicalJson.ofJson v))
        = .ok comments) :
      ReadFrom form (.object members)
        { sourceType, body, comments,
          others := .ofMembers ["sourceType", "body", "comments"] members }

/-- Reading a program says what the object held. Comments are the one part that may be missing. -/
theorem Program.readFrom_of_ofJson {form : TagForm} {value : Json} {program : Program}
    (h : Program.ofJson form value = .ok program) : program.ReadFrom form value := by
  obtain ⟨members, hrecord, hrest⟩ := bind_ok_iff.1 h
  obtain rfl := readRecord_ok hrecord
  obtain ⟨⟨⟨sourceType, body⟩, comments⟩, hfields, hresult⟩ := bind_ok_iff.1 hrest
  obtain ⟨hboth, hcomments⟩ := Checked.both_ok_iff.1 (Checked.settle_ok_iff.1 hfields)
  obtain ⟨hsource, hbody⟩ := Checked.both_ok_iff.1 hboth
  cases hresult
  exact .intro hsource hbody hcomments

/-! ### Embeddings -/

/-- An embedding is read from its program, if there is one. -/
inductive Embedding.ReadFrom : Json → Embedding → Prop where
  | intro {members : Members} {fragment : Option Fragment}
      (hfragment : members.optional "estree" (fun v => .ok (Fragment.ofJson v)) = .ok fragment) :
      ReadFrom (.object members) { fragment, others := .ofMembers ["estree"] members }

/-- Reading an embedding says what the object held. Any program in it was taken, typed or not. -/
theorem Embedding.readFrom_of_ofJson {value : Json} {embedding : Embedding}
    (h : Embedding.ofJson value = .ok embedding) : embedding.ReadFrom value := by
  obtain ⟨members, hrecord, hrest⟩ := bind_ok_iff.1 h
  obtain rfl := readRecord_ok hrecord
  obtain ⟨fragment, hfragment, hresult⟩ := bind_ok_iff.1 hrest
  cases hresult
  exact .intro (Checked.settle_ok_iff.1 hfragment)

end ImageImports.Estree
