import ImageImports.Estree.Printer
import ImageImports.Proofs.Estree.Content
import ImageImports.Proofs.Json.Canonical

/-!
# `ImageImports.Proofs.Estree.RoundTrip`: program fragments are read back as they were written

A fragment is well-formed when its parts are and when its other members avoid its own typed fields.
Then its written form, in the normal form of a JSON value, is read back as the same fragment
(`Embedding.ofJson_toJson` and the statements before it, one for each type of fragment).

Of an embedded program that has no typed form well-formedness asks two things more. It must not be
null, because that reads as no program at all, and it must not have a typed form after all, because
the reader tries that first. Both hold of what was read from a value in normal form, so every
embedding that was read from one is well-formed (`Embedding.wellFormed_of_ofJson`).
-/

set_option autoImplicit false

namespace ImageImports.Estree

open Json Members

/-! ### Well-formed fragments -/

/-- The other members avoid the typed fields, so none of them is read as the name when the object is
read again. -/
def Identifier.WellFormed (identifier : Identifier) : Prop :=
  identifier.others.Avoids ["name"]

/-- The other members avoid the typed fields of a literal. -/
def StringLiteral.WellFormed (literal : StringLiteral) : Prop :=
  literal.others.Avoids ["value", "raw"]

/-- The names are well-formed, and the other members avoid the typed fields. -/
def ImportSpecifier.WellFormed : ImportSpecifier → Prop
  | .whole binding others => binding.WellFormed ∧ others.Avoids ["local"]
  | .star binding others => binding.WellFormed ∧ others.Avoids ["local"]
  | .named imported binding others =>
      imported.WellFormed ∧ binding.WellFormed ∧ others.Avoids ["imported", "local"]

/-- The parts are well-formed, and the other members avoid the typed fields. -/
def Statement.WellFormed : Statement → Prop
  | .importDeclaration specifiers source others =>
      (∀ specifier ∈ specifiers, specifier.WellFormed) ∧ source.WellFormed
        ∧ others.Avoids ["specifiers", "source"]
  | .expression identifier others => identifier.WellFormed ∧ others.Avoids ["expression"]

/-- The statements are well-formed, and the other members avoid the typed fields. -/
def Program.WellFormed (program : Program) : Prop :=
  (∀ statement ∈ program.body, statement.WellFormed)
    ∧ program.others.Avoids ["sourceType", "body", "comments"]

/-- A typed program is well-formed, and any other is neither null nor readable as a typed one. -/
def Fragment.WellFormed : Fragment → Prop
  | .program p => p.WellFormed
  | .untyped value =>
      value.value ≠ .null ∧ ∀ p, Program.ofJson .nameOrPosition value.value ≠ .ok p

/-- The program is well-formed, and the other members avoid the typed field. -/
def Embedding.WellFormed (embedding : Embedding) : Prop :=
  (∀ fragment ∈ embedding.fragment, fragment.WellFormed) ∧ embedding.others.Avoids ["estree"]

/-! ### Round trips -/

/-- A field that is written only where it has a value is found under its own key and no other
one. -/
@[simp]
theorem last?_whenSome {α : Type} (key : String) (write : α → Json) (found : Option α)
    (sought : String) :
    (whenSome key write found).last? sought = if key = sought then found.map write else none := by
  cases found <;> simp [whenSome, last?]

/-- A well-formed name is read back from what is written for it. -/
theorem Identifier.ofJson_toJson {identifier : Identifier} (h : identifier.WellFormed) :
    Identifier.ofJson identifier.toJson.normalize = .ok identifier := by
  obtain ⟨members, heq, -, hold⟩ := holds_tagged h (by decide) "Identifier"
    [("name", .string identifier.name)] (by simp)
  have hname : members.required "name" readString = .ok identifier.name :=
    hold.required _ (by simp) rfl rfl
  rw [Identifier.toJson, List.cons_append, heq]
  simp [Identifier.ofJson, readRecord, hname, hold.others_eq, Checked.settle, bind, Except.bind]

/-- A well-formed string literal is read back from what is written for it, with or without its
written form. -/
theorem StringLiteral.ofJson_toJson {literal : StringLiteral} (h : literal.WellFormed) :
    StringLiteral.ofJson literal.toJson.normalize = .ok literal := by
  obtain ⟨members, heq, -, hold⟩ := holds_tagged h (by decide) "Literal"
    (("value", .string literal.value) :: whenSome "raw" .string literal.raw)
    (by cases literal.raw <;> simp [whenSome])
  have hvalue : members.required "value" readString = .ok literal.value :=
    hold.required (.string literal.value) (by simp) (by simp) rfl
  have hraw : members.optional "raw" readString = .ok literal.raw :=
    hold.optional_map .string (by simp) (by simp) fun raw _ => ⟨by simp [Json.normalize], rfl⟩
  have hwritten : literal.toJson.normalize = .object members := by
    rw [← heq, StringLiteral.toJson]
    simp
  rw [hwritten]
  simp [StringLiteral.ofJson, readRecord, hvalue, hraw, hold.others_eq, Checked.both,
    Checked.settle, bind, Except.bind]

/-- The bound name of an import of everything, under either type, is read back. -/
theorem ImportSpecifier.local_written {binding : Identifier} {others : OtherMembers}
    (hbinding : binding.WellFormed) (hothers : others.Avoids ["local"]) (form : TagForm)
    {tag : String} {kind : SpecifierKind} (hkind : SpecifierKind.names.lookup tag = some kind) :
    ∃ kept : Members,
      readTagged "ImportSpecifier" form SpecifierKind.names
          (Json.object (("type", .string tag)
            :: ("local", binding.toJson) :: others.entries)).normalize
        = .ok (kind, .object kept)
      ∧ kept.required "local" Identifier.ofJson = .ok binding
      ∧ OtherMembers.ofMembers ["local"] kept = others := by
  obtain ⟨kept, htag, hold⟩ := readTagged_written hothers (by decide) "ImportSpecifier" form hkind
    [("local", binding.toJson)] (by simp)
  have hlocal : kept.required "local" Identifier.ofJson = .ok binding :=
    hold.required _ (by simp) rfl (Identifier.ofJson_toJson hbinding)
  exact ⟨kept, htag, hlocal, hold.others_eq⟩

/-- A well-formed name bound by an import is read back, in whatever form tags are accepted: its type
is written by its name. -/
theorem ImportSpecifier.ofJson_toJson (form : TagForm) {specifier : ImportSpecifier}
    (h : specifier.WellFormed) :
    ImportSpecifier.ofJson form specifier.toJson.normalize = .ok specifier := by
  cases specifier with
  | whole binding others =>
      have hkind : SpecifierKind.names.lookup "ImportDefaultSpecifier" = some .whole := rfl
      obtain ⟨kept, htag, hlocal, hothers⟩ := local_written h.1 h.2 form hkind
      rw [ImportSpecifier.ofJson, ImportSpecifier.toJson]
      simp [htag, readRecord, hlocal, hothers, Checked.settle, bind, Except.bind]
  | star binding others =>
      have hkind : SpecifierKind.names.lookup "ImportNamespaceSpecifier" = some .star := rfl
      obtain ⟨kept, htag, hlocal, hothers⟩ := local_written h.1 h.2 form hkind
      rw [ImportSpecifier.ofJson, ImportSpecifier.toJson]
      simp [htag, readRecord, hlocal, hothers, Checked.settle, bind, Except.bind]
  | named imported binding others =>
      obtain ⟨himported, hbinding, hothers⟩ := h
      have hkind : SpecifierKind.names.lookup "ImportSpecifier" = some .named := rfl
      obtain ⟨kept, htag, hold⟩ := readTagged_written hothers (by decide) "ImportSpecifier" form
        hkind [("imported", imported.toJson), ("local", binding.toJson)] (by simp)
      have hlocal : kept.required "local" Identifier.ofJson = .ok binding :=
        hold.required _ (by simp) rfl (Identifier.ofJson_toJson hbinding)
      have himported : kept.required "imported" Identifier.ofJson = .ok imported :=
        hold.required _ (by simp) rfl (Identifier.ofJson_toJson himported)
      rw [ImportSpecifier.ofJson, ImportSpecifier.toJson, List.cons_append, htag]
      simp [readRecord, himported, hlocal, hold.others_eq, Checked.both, Checked.settle, bind,
        Except.bind]

/-- A well-formed statement is read back from what is written for it. -/
theorem Statement.ofJson_toJson (form : TagForm) {statement : Statement}
    (h : statement.WellFormed) :
    Statement.ofJson form statement.toJson.normalize = .ok statement := by
  cases statement with
  | importDeclaration specifiers source others =>
      obtain ⟨hspecifiers, hsource, hothers⟩ := h
      have hkind : StatementKind.names.lookup "ImportDeclaration" = some .importDeclaration := rfl
      obtain ⟨kept, htag, hold⟩ := readTagged_written hothers (by decide) "Statement" form hkind
        [("specifiers", .array (specifiers.map ImportSpecifier.toJson)),
          ("source", source.toJson)] (by simp)
      have hlist : kept.required "specifiers" (readList (ImportSpecifier.ofJson .nameOrPosition))
          = .ok specifiers :=
        hold.required _ (by simp) rfl (readList_written fun specifier hspecifier =>
          ImportSpecifier.ofJson_toJson _ (hspecifiers specifier hspecifier))
      have hsource : kept.required "source" StringLiteral.ofJson = .ok source :=
        hold.required _ (by simp) rfl (StringLiteral.ofJson_toJson hsource)
      rw [Statement.ofJson, Statement.toJson, List.cons_append, htag]
      simp [readRecord, hlist, hsource, hold.others_eq, Checked.both, Checked.settle, bind,
        Except.bind]
  | expression identifier others =>
      obtain ⟨hidentifier, hothers⟩ := h
      have hkind : StatementKind.names.lookup "ExpressionStatement" = some .expression := rfl
      obtain ⟨kept, htag, hold⟩ := readTagged_written hothers (by decide) "Statement" form hkind
        [("expression", identifier.toJson)] (by simp)
      have hexpression : kept.required "expression" Identifier.ofJson = .ok identifier :=
        hold.required _ (by simp) rfl (Identifier.ofJson_toJson hidentifier)
      rw [Statement.ofJson, Statement.toJson, List.cons_append, htag]
      simp [readRecord, hexpression, hold.others_eq, Checked.settle, bind, Except.bind]

/-- A well-formed program is read back from what is written for it. Its comments are in normal form,
so they are read as they were. -/
theorem Program.ofJson_toJson (form : TagForm) {program : Program} (h : program.WellFormed) :
    Program.ofJson form program.toJson.normalize = .ok program := by
  obtain ⟨hstatements, hothers⟩ := h
  -- An empty list of comments is written and an absent one is not, so both are found again.
  let write : List CanonicalJson → Json := fun comments => .array (comments.map CanonicalJson.value)
  obtain ⟨members, heq, -, hold⟩ := holds_tagged hothers (by decide) "Program"
    (("sourceType", .string program.sourceType.name)
      :: ("body", .array (program.body.map Statement.toJson))
      :: whenSome "comments" write program.comments)
    (by cases program.comments <;> simp [whenSome])
  have hsource : members.required "sourceType" (readChoice SourceType.names isNull)
      = .ok program.sourceType := by
    refine hold.required (.string program.sourceType.name) (by simp) (by simp) ?_
    cases program.sourceType <;> rfl
  have hbody : members.required "body" (readList (Statement.ofJson form)) = .ok program.body := by
    refine hold.required (.array (program.body.map Statement.toJson)) (by simp) (by simp) ?_
    exact readList_written fun statement hstatement =>
      Statement.ofJson_toJson form (hstatements statement hstatement)
  have hcomments : members.optional "comments" (readList fun v => .ok (CanonicalJson.ofJson v))
      = .ok program.comments := by
    refine hold.optional_map write (by simp) (by simp) fun comments _ => ⟨?_, ?_⟩
    · simp [write, Json.normalize]
    · exact readList_written fun comment _ => by rw [CanonicalJson.ofJson_normalize_value]
  have hwritten : program.toJson.normalize = .object members := by
    rw [← heq, Program.toJson]
    simp [write]
  rw [hwritten]
  simp [Program.ofJson, readRecord, hsource, hbody, hcomments, hold.others_eq, Checked.both,
    Checked.settle, bind, Except.bind]

/-- No written program reads as nothing, since it is an object. -/
theorem Program.toJson_ne_null (program : Program) : program.toJson.normalize ≠ .null := by
  simp [Program.toJson, Json.normalize]

/-- A well-formed fragment is read back and is not taken for none. For one without a typed form this
needs that it does not fit the typed form either. -/
theorem Fragment.ofJson_toJson {fragment : Fragment} (h : fragment.WellFormed) :
    fragment.toJson.normalize ≠ .null ∧ Fragment.ofJson fragment.toJson.normalize = fragment := by
  cases fragment with
  | program p =>
      -- The reader tries the typed form first, and it fits.
      have hread := Program.ofJson_toJson .nameOrPosition h
      refine ⟨p.toJson_ne_null, ?_⟩
      rw [Fragment.ofJson, Fragment.toJson, hread]
  | untyped value =>
      obtain ⟨hnull, hprogram⟩ := h
      rw [Fragment.toJson, value.normal]
      refine ⟨hnull, ?_⟩
      -- The typed form does not fit, so the value is kept, and it is its own normal form.
      unfold Fragment.ofJson
      cases hread : Program.ofJson .nameOrPosition value.value with
      | ok p => exact absurd hread (hprogram p)
      | error cause => exact congrArg Fragment.untyped value.ofJson_value

/-- A well-formed embedding is read back from what is written for it. A program is never written as
null, which would be read as none. -/
theorem Embedding.ofJson_toJson {embedding : Embedding} (h : embedding.WellFormed) :
    Embedding.ofJson embedding.toJson.normalize = .ok embedding := by
  obtain ⟨hfragment, hothers⟩ := h
  obtain ⟨members, heq, hold⟩ := holds_written hothers
    (Members.whenSome "estree" Fragment.toJson embedding.fragment)
    (by cases embedding.fragment <;> simp [Members.whenSome])
  have hestree : members.optional "estree" (fun v => .ok (Fragment.ofJson v))
      = .ok embedding.fragment := by
    refine hold.optional_map Fragment.toJson (by simp) (by simp) fun fragment hf => ?_
    obtain ⟨hnull, hread⟩ := Fragment.ofJson_toJson (hfragment fragment hf)
    exact ⟨hnull, congrArg Except.ok hread⟩
  rw [Embedding.toJson, heq]
  simp [Embedding.ofJson, readRecord, hestree, hold.others_eq, Checked.settle, bind, Except.bind]

/-- No written embedding reads as nothing, since it is an object. -/
theorem Embedding.toJson_ne_null (embedding : Embedding) : embedding.toJson.normalize ≠ .null := by
  simp [Embedding.toJson, Json.normalize]

/-! ### Fragments that were read -/

/-- A name that was read is well-formed, because the reader takes the typed fields out of the other
members. -/
theorem Identifier.wellFormed_of_ofJson {value : Json} {identifier : Identifier}
    (h : Identifier.ofJson value = .ok identifier) : identifier.WellFormed := by
  obtain ⟨-⟩ := readFrom_of_ofJson h
  exact OtherMembers.avoids_ofMembers _ _

/-- A string literal that was read is well-formed. -/
theorem StringLiteral.wellFormed_of_ofJson {value : Json} {literal : StringLiteral}
    (h : StringLiteral.ofJson value = .ok literal) : literal.WellFormed := by
  obtain ⟨-, -⟩ := readFrom_of_ofJson h
  exact OtherMembers.avoids_ofMembers _ _

/-- A name that was read from a member is well-formed. -/
theorem Identifier.wellFormed_of_required {members : Members} {key : String}
    {identifier : Identifier} (h : members.required key Identifier.ofJson = .ok identifier) :
    identifier.WellFormed := by
  obtain ⟨value, -, hread⟩ := required_ok h
  exact wellFormed_of_ofJson hread

/-- A name bound by an import that was read is well-formed. -/
theorem ImportSpecifier.wellFormed_of_ofJson {form : TagForm} {value : Json}
    {specifier : ImportSpecifier} (h : ImportSpecifier.ofJson form value = .ok specifier) :
    specifier.WellFormed := by
  cases readFrom_of_ofJson h with
  | whole _ hbinding | star _ hbinding =>
      exact ⟨Identifier.wellFormed_of_required hbinding, OtherMembers.avoids_ofMembers _ _⟩
  | named _ himported hbinding =>
      exact ⟨Identifier.wellFormed_of_required himported,
        Identifier.wellFormed_of_required hbinding, OtherMembers.avoids_ofMembers _ _⟩

/-- A statement that was read is well-formed. -/
theorem Statement.wellFormed_of_ofJson {form : TagForm} {value : Json} {statement : Statement}
    (h : Statement.ofJson form value = .ok statement) : statement.WellFormed := by
  cases readFrom_of_ofJson h with
  | importDeclaration _ hspecifiers hsource =>
      obtain ⟨list, -, hlist⟩ := required_ok hspecifiers
      obtain ⟨values, -, hitems⟩ := readList_ok hlist
      obtain ⟨literal, -, hliteral⟩ := required_ok hsource
      exact ⟨forall_mem_of_readItems (fun _ _ _ => ImportSpecifier.wellFormed_of_ofJson) hitems,
        StringLiteral.wellFormed_of_ofJson hliteral, OtherMembers.avoids_ofMembers _ _⟩
  | expression _ hidentifier =>
      exact ⟨Identifier.wellFormed_of_required hidentifier, OtherMembers.avoids_ofMembers _ _⟩

/-- A program that was read is well-formed. -/
theorem Program.wellFormed_of_ofJson {form : TagForm} {value : Json} {program : Program}
    (h : Program.ofJson form value = .ok program) : program.WellFormed := by
  obtain ⟨-, hbody, -⟩ := readFrom_of_ofJson h
  obtain ⟨list, -, hlist⟩ := required_ok hbody
  obtain ⟨values, -, hitems⟩ := readList_ok hlist
  exact ⟨forall_mem_of_readItems (fun _ _ _ => Statement.wellFormed_of_ofJson) hitems,
    OtherMembers.avoids_ofMembers _ _⟩

/-- A fragment that was read from a value in normal form is well-formed: where the typed form did
not fit, it does not fit the value that was kept either. -/
theorem Fragment.wellFormed_ofJson {value : Json} (hnormal : value.normalize = value)
    (hnull : value ≠ .null) : (Fragment.ofJson value).WellFormed := by
  unfold Fragment.ofJson
  cases hread : Program.ofJson .nameOrPosition value with
  | ok program => exact Program.wellFormed_of_ofJson hread
  | error cause =>
      show value.normalize ≠ .null
        ∧ ∀ p, Program.ofJson .nameOrPosition value.normalize ≠ .ok p
      rw [hnormal, hread]
      exact ⟨hnull, fun p hp => by cases hp⟩

/-- An embedding that was read from a value in normal form is well-formed. Normal form is needed for
a program without a typed form, which must not fit one once it is normalized. -/
theorem Embedding.wellFormed_of_ofJson {value : Json} (hnormal : value.normalize = value)
    {embedding : Embedding} (h : Embedding.ofJson value = .ok embedding) :
    embedding.WellFormed := by
  obtain ⟨hfragment⟩ := readFrom_of_ofJson h
  refine ⟨fun found hfound => ?_, OtherMembers.avoids_ofMembers _ _⟩
  obtain ⟨inner, hinner, hnull, ⟨⟩⟩ := exists_of_mem_optional hfragment hfound
  exact Fragment.wellFormed_ofJson (normalValues_of_normal hnormal _ _ hinner) hnull

end ImageImports.Estree
