import Mathlib.Data.List.Forall2
import ImageImports.Proofs.Estree.Nesting
import ImageImports.Proofs.Json.DistinctKeys

/-!
# `ImageImports.Proofs.Estree.Tidy`: program fragments that repeat no key

A fragment is tidy when the other members of each of its parts are (`OtherMembers.Tidy`), whatever
typed fields the part has. Well-formedness asks for more: a program without a typed form is tidy
even where it would be read back as something else.

For each type of fragment there are three statements. What was read is tidy (`gives_tidy`), what is
tidy is written without a repeated key (`Tidy.writable`), and what is left of it after some of its
other members were taken out is tidy again (`Tidy.trimmed`).
-/

set_option autoImplicit false

namespace ImageImports

open Json

/-! ### Reading values that can be written -/

/-- What a reader makes of a value whose numbers have a text has a property. -/
def Json.Gives {α : Type} (read : Json → Except Mismatch α) (P : α → Prop) : Prop :=
  ∀ (value : Json) (a : α), read value = .ok a → value.Valid → P a

namespace Members

section
variable {members : Members} {α : Type} {key : String} {read : Json → Except Mismatch α}
variable {P : α → Prop}

/-- A required field that was read has the property that its reader gives. -/
theorem Valid.required (h : members.Valid) (hgives : Gives read P) {a : α}
    (hread : members.required key read = .ok a) : P a := by
  obtain ⟨value, hvalue, hread⟩ := required_ok hread
  exact hgives value a hread (h _ (mem_of_last? hvalue))

/-- An optional field that was read and is there has the property that its reader gives. -/
theorem Valid.optional (h : members.Valid) (hgives : Gives read P) {found : Option α}
    (hread : members.optional key read = .ok found) : ∀ a ∈ found, P a := by
  intro a ha
  obtain ⟨value, hvalue, -, hread⟩ := exists_of_mem_optional hread ha
  exact hgives value a hread (h _ (mem_of_last? hvalue))

/-- A field with a default that was read has the property that its reader gives, if the default has
it. -/
theorem Valid.defaulted (h : members.Valid) (hgives : Gives read P) {default a : α}
    (hdefault : P default) (hread : members.defaulted key default read = .ok a) : P a := by
  rcases defaulted_ok hread with ⟨-, rfl⟩ | ⟨value, hvalue, hread⟩
  · exact hdefault
  · exact hgives value a hread (h _ (mem_of_last? hvalue))

end

end Members

namespace Json

variable {α : Type} {read : Json → Except Mismatch α} {P : α → Prop}

/-- The items of a list that was read have the property that the reader of an item gives. -/
theorem Gives.list (h : Gives read P) : Gives (readList read) fun items => ∀ a ∈ items, P a := by
  intro value items hread hvalid
  obtain ⟨values, rfl, hitems⟩ := readList_ok hread
  exact forall_mem_of_readItems
    (fun found hfound a hread => h found a hread (valid_array_iff.1 hvalid found hfound)) hitems

/-- The members beside a tag have values whose numbers have a text. -/
theorem valid_of_readTagged {name : String} {form : TagForm} {variants : List (String × α)}
    {value : Json} {members : Members} {a : α}
    (h : readTagged name form variants value = .ok (a, .object members)) (hvalid : value.Valid) :
    members.Valid := by
  obtain ⟨depth, hfits⟩ := hvalid
  exact Members.valid_of_object ⟨depth, fits_of_readTagged h hfits⟩

end Json

/-! ### Parts of lists and options -/

/-- What a relation carries over it carries over from list to list. -/
theorem forall_mem_of_forall₂ {α : Type} {R : α → α → Prop} {P : α → Prop} {old new : List α}
    (h : List.Forall₂ R old new) (hR : ∀ a b, R a b → P a → P b) (hold : ∀ a ∈ old, P a) :
    ∀ b ∈ new, P b := by
  induction h with
  | nil => simp
  | @cons a b old new hab _ ih =>
      obtain ⟨ha, hrest⟩ := List.forall_mem_cons.1 hold
      exact List.forall_mem_cons.2 ⟨hR a b hab ha, ih hrest⟩

/-- What a relation carries over it carries over from an optional value to an optional value. -/
theorem forall_mem_of_optionRel {α : Type} {R : α → α → Prop} {P : α → Prop} {old new : Option α}
    (h : Option.Rel R old new) (hR : ∀ a b, R a b → P a → P b) (hold : ∀ a ∈ old, P a) :
    ∀ b ∈ new, P b := by
  cases h with
  | none => simp
  | some hab =>
      rintro b hb
      cases hb
      exact hR _ _ hab (hold _ rfl)

namespace Estree

open Members

/-! ### Names and literals -/

/-- The other members are tidy beside the name. -/
def Identifier.Tidy (identifier : Identifier) : Prop := identifier.others.Tidy ["name"]

/-- The same name with some of its other members taken out. -/
structure Identifier.Trimmed (old new : Identifier) : Prop where
  name : new.name = old.name
  others : old.others.Trimmed new.others

/-- A name that was read is tidy. -/
theorem Identifier.gives_tidy : Gives Identifier.ofJson Identifier.Tidy := by
  intro value identifier h hvalid
  obtain ⟨-⟩ := readFrom_of_ofJson h
  exact OtherMembers.tidy_ofMembers (valid_of_object hvalid) _

/-- A tidy name is written without a repeated key. -/
theorem Identifier.Tidy.writable {identifier : Identifier} (h : identifier.Tidy) :
    identifier.toJson.Writable :=
  writable_record h (by simp) (by simp) (by simp)

/-- A tidy name stays tidy when some of its other members are taken out. -/
theorem Identifier.Tidy.trimmed {old new : Identifier} (h : old.Tidy) (htrimmed : old.Trimmed new) :
    new.Tidy :=
  OtherMembers.Tidy.trimmed h htrimmed.others

/-- The other members are tidy beside the string and the literal as it is written. -/
def StringLiteral.Tidy (literal : StringLiteral) : Prop := literal.others.Tidy ["value", "raw"]

/-- The same literal with some of its other members taken out. -/
structure StringLiteral.Trimmed (old new : StringLiteral) : Prop where
  value : new.value = old.value
  raw : new.raw = old.raw
  others : old.others.Trimmed new.others

/-- A string literal that was read is tidy. -/
theorem StringLiteral.gives_tidy : Gives StringLiteral.ofJson StringLiteral.Tidy := by
  intro value literal h hvalid
  obtain ⟨-, -⟩ := readFrom_of_ofJson h
  exact OtherMembers.tidy_ofMembers (valid_of_object hvalid) _

/-- A tidy string literal is written without a repeated key, also where its written form is left
out. -/
theorem StringLiteral.Tidy.writable {literal : StringLiteral} (h : literal.Tidy) :
    literal.toJson.Writable := by
  refine writable_record h ?_ ?_ ?_ <;> cases literal.raw <;> simp [whenSome]

/-- A tidy string literal stays tidy when some of its other members are taken out. -/
theorem StringLiteral.Tidy.trimmed {old new : StringLiteral} (h : old.Tidy)
    (htrimmed : old.Trimmed new) : new.Tidy :=
  OtherMembers.Tidy.trimmed h htrimmed.others

/-! ### Imports -/

/-- The names are tidy, and the other members are beside them. -/
def ImportSpecifier.Tidy : ImportSpecifier → Prop
  | .whole binding others => binding.Tidy ∧ others.Tidy ["local"]
  | .star binding others => binding.Tidy ∧ others.Tidy ["local"]
  | .named imported binding others =>
      imported.Tidy ∧ binding.Tidy ∧ others.Tidy ["imported", "local"]

/-- The same binding with some other members of its parts taken out. -/
inductive ImportSpecifier.Trimmed : ImportSpecifier → ImportSpecifier → Prop where
  | whole {binding binding' : Identifier} {others others' : OtherMembers}
      (hbinding : binding.Trimmed binding') (hothers : others.Trimmed others') :
      Trimmed (.whole binding others) (.whole binding' others')
  | star {binding binding' : Identifier} {others others' : OtherMembers}
      (hbinding : binding.Trimmed binding') (hothers : others.Trimmed others') :
      Trimmed (.star binding others) (.star binding' others')
  | named {imported imported' binding binding' : Identifier} {others others' : OtherMembers}
      (himported : imported.Trimmed imported') (hbinding : binding.Trimmed binding')
      (hothers : others.Trimmed others') :
      Trimmed (.named imported binding others) (.named imported' binding' others')

/-- A name bound by an import that was read is tidy. -/
theorem ImportSpecifier.gives_tidy (form : TagForm) :
    Gives (ImportSpecifier.ofJson form) ImportSpecifier.Tidy := by
  intro value specifier h hvalid
  cases readFrom_of_ofJson h with
  | whole htagged hbinding | star htagged hbinding =>
      have hmembers := valid_of_readTagged htagged hvalid
      have hlocal := hmembers.required Identifier.gives_tidy hbinding
      exact ⟨hlocal, OtherMembers.tidy_ofMembers hmembers _⟩
  | named htagged himported hbinding =>
      have hmembers := valid_of_readTagged htagged hvalid
      have hname := hmembers.required Identifier.gives_tidy himported
      have hlocal := hmembers.required Identifier.gives_tidy hbinding
      exact ⟨hname, hlocal, OtherMembers.tidy_ofMembers hmembers _⟩

/-- A tidy name bound by an import is written without a repeated key. -/
theorem ImportSpecifier.Tidy.writable {specifier : ImportSpecifier} (h : specifier.Tidy) :
    specifier.toJson.Writable := by
  cases specifier with
  | whole binding others => exact writable_record h.2 (by simp) (by simp) (by simp [h.1.writable])
  | star binding others => exact writable_record h.2 (by simp) (by simp) (by simp [h.1.writable])
  | named imported binding others =>
      exact writable_record h.2.2 (by simp) (by simp) (by simp [h.1.writable, h.2.1.writable])

/-- A tidy name bound by an import stays tidy when other members of its parts are taken out. -/
theorem ImportSpecifier.Tidy.trimmed {old new : ImportSpecifier} (h : old.Tidy)
    (htrimmed : old.Trimmed new) : new.Tidy := by
  cases htrimmed with
  | whole hbinding hothers => exact ⟨h.1.trimmed hbinding, h.2.trimmed hothers⟩
  | star hbinding hothers => exact ⟨h.1.trimmed hbinding, h.2.trimmed hothers⟩
  | named himported hbinding hothers =>
      exact ⟨h.1.trimmed himported, h.2.1.trimmed hbinding, h.2.2.trimmed hothers⟩

/-! ### Statements and programs -/

/-- The parts are tidy, and the other members are beside them. -/
def Statement.Tidy : Statement → Prop
  | .importDeclaration specifiers source others =>
      (∀ specifier ∈ specifiers, specifier.Tidy) ∧ source.Tidy
        ∧ others.Tidy ["specifiers", "source"]
  | .expression identifier others => identifier.Tidy ∧ others.Tidy ["expression"]

/-- The same statement with some other members of its parts taken out. -/
inductive Statement.Trimmed : Statement → Statement → Prop where
  | importDeclaration {specifiers specifiers' : List ImportSpecifier}
      {source source' : StringLiteral} {others others' : OtherMembers}
      (hspecifiers : List.Forall₂ ImportSpecifier.Trimmed specifiers specifiers')
      (hsource : source.Trimmed source') (hothers : others.Trimmed others') :
      Trimmed (.importDeclaration specifiers source others)
        (.importDeclaration specifiers' source' others')
  | expression {identifier identifier' : Identifier} {others others' : OtherMembers}
      (hidentifier : identifier.Trimmed identifier') (hothers : others.Trimmed others') :
      Trimmed (.expression identifier others) (.expression identifier' others')

/-- A statement that was read is tidy. -/
theorem Statement.gives_tidy (form : TagForm) : Gives (Statement.ofJson form) Statement.Tidy := by
  intro value statement h hvalid
  cases readFrom_of_ofJson h with
  | importDeclaration htagged hspecifiers hsource =>
      have hmembers := valid_of_readTagged htagged hvalid
      have hlist := hmembers.required (ImportSpecifier.gives_tidy .nameOrPosition).list hspecifiers
      have hliteral := hmembers.required StringLiteral.gives_tidy hsource
      exact ⟨hlist, hliteral, OtherMembers.tidy_ofMembers hmembers _⟩
  | expression htagged hidentifier =>
      have hmembers := valid_of_readTagged htagged hvalid
      have hname := hmembers.required Identifier.gives_tidy hidentifier
      exact ⟨hname, OtherMembers.tidy_ofMembers hmembers _⟩

/-- A tidy statement is written without a repeated key. -/
theorem Statement.Tidy.writable {statement : Statement} (h : statement.Tidy) :
    statement.toJson.Writable := by
  cases statement with
  | importDeclaration specifiers source others =>
      obtain ⟨hspecifiers, hsource, hothers⟩ := h
      have hlist : (Json.array (specifiers.map ImportSpecifier.toJson)).Writable :=
        .list fun specifier hspecifier => (hspecifiers specifier hspecifier).writable
      exact writable_record hothers (by simp) (by simp) (by simp [hlist, hsource.writable])
  | expression identifier others =>
      exact writable_record h.2 (by simp) (by simp) (by simp [h.1.writable])

/-- A tidy statement stays tidy when other members of its parts are taken out. -/
theorem Statement.Tidy.trimmed {old new : Statement} (h : old.Tidy) (htrimmed : old.Trimmed new) :
    new.Tidy := by
  cases htrimmed with
  | importDeclaration hspecifiers hsource hothers =>
      refine ⟨?_, h.2.1.trimmed hsource, h.2.2.trimmed hothers⟩
      exact forall_mem_of_forall₂ hspecifiers (fun _ _ ht hold => hold.trimmed ht) h.1
  | expression hidentifier hothers => exact ⟨h.1.trimmed hidentifier, h.2.trimmed hothers⟩

/-- The statements are tidy, the comments can be written, and the other members are tidy beside
them. -/
structure Program.Tidy (program : Program) : Prop where
  body : ∀ statement ∈ program.body, statement.Tidy
  comments : ∀ comments ∈ program.comments, ∀ comment ∈ comments, comment.value.Valid
  others : program.others.Tidy ["sourceType", "body", "comments"]

/-- The same program with some other members of its parts taken out. -/
structure Program.Trimmed (old new : Program) : Prop where
  sourceType : new.sourceType = old.sourceType
  body : List.Forall₂ Statement.Trimmed old.body new.body
  comments : new.comments = old.comments
  others : old.others.Trimmed new.others

/-- A value that is kept as it is keeps its numbers. -/
theorem gives_canonical : Gives (fun value => .ok (CanonicalJson.ofJson value))
    fun value => value.value.Valid := by
  rintro value _ ⟨⟩ hvalid
  exact hvalid.normalize

/-- A program that was read is tidy. Its comments are kept as they are, and their numbers have a
text. -/
theorem Program.gives_tidy (form : TagForm) : Gives (Program.ofJson form) Program.Tidy := by
  intro value program h hvalid
  obtain ⟨-, hbody, hcomments⟩ := readFrom_of_ofJson h
  have hmembers := valid_of_object hvalid
  have hstatements := hmembers.required (Statement.gives_tidy form).list hbody
  have hnotes := hmembers.optional gives_canonical.list hcomments
  exact ⟨hstatements, hnotes, OtherMembers.tidy_ofMembers hmembers _⟩

/-- A tidy program is written without a repeated key, comments included. -/
theorem Program.Tidy.writable {program : Program} (h : program.Tidy) :
    program.toJson.Writable := by
  have hbody : (Json.array (program.body.map Statement.toJson)).Writable :=
    .list fun statement hstatement => (h.body statement hstatement).writable
  have hnotes : ∀ comments ∈ program.comments,
      (Json.array (comments.map CanonicalJson.value)).Writable := fun comments hcomments =>
    .list fun comment hcomment =>
      CanonicalJson.writable (h.comments comments hcomments comment hcomment)
  refine writable_record h.others ?_ ?_ ?_
  · cases program.comments <;> simp [whenSome]
  · cases program.comments <;> simp [whenSome]
  · cases hcomments : program.comments with
    | none => simp [whenSome, hbody]
    | some comments => simp [whenSome, hbody, hnotes comments hcomments]

/-- A tidy program stays tidy when other members of its parts are taken out. -/
theorem Program.Tidy.trimmed {old new : Program} (h : old.Tidy) (htrimmed : old.Trimmed new) :
    new.Tidy where
  body := forall_mem_of_forall₂ htrimmed.body (fun _ _ ht hold => hold.trimmed ht) h.body
  comments := htrimmed.comments ▸ h.comments
  others := h.others.trimmed htrimmed.others

/-! ### Embedded programs -/

/-- A typed program is tidy, and the numbers of any other have a text. -/
def Fragment.Tidy : Fragment → Prop
  | .program p => p.Tidy
  | .untyped value => value.value.Valid

/-- The same program with some other members of its parts taken out. A program without a typed form
has none. -/
inductive Fragment.Trimmed : Fragment → Fragment → Prop where
  | program {old new : Program} (h : old.Trimmed new) : Trimmed (.program old) (.program new)
  | untyped (value : CanonicalJson) : Trimmed (.untyped value) (.untyped value)

/-- An embedded program that was read is tidy, typed or not. -/
theorem Fragment.gives_tidy : Gives (fun value => .ok (Fragment.ofJson value)) Fragment.Tidy := by
  rintro value _ ⟨⟩ hvalid
  unfold Fragment.ofJson
  cases hread : Program.ofJson .nameOrPosition value with
  | ok program => exact Program.gives_tidy _ value program hread hvalid
  | error cause => exact hvalid.normalize

/-- A tidy embedded program is written without a repeated key. One without a typed form is in normal
form, which repeats none. -/
theorem Fragment.Tidy.writable {fragment : Fragment} (h : fragment.Tidy) :
    fragment.toJson.Writable := by
  cases fragment with
  | program p => exact Program.Tidy.writable h
  | untyped value => exact CanonicalJson.writable h

/-- A tidy embedded program stays tidy when other members of its parts are taken out. -/
theorem Fragment.Tidy.trimmed {old new : Fragment} (h : old.Tidy) (htrimmed : old.Trimmed new) :
    new.Tidy := by
  cases htrimmed with
  | program hprogram => exact Program.Tidy.trimmed h hprogram
  | untyped value => exact h

/-- The program is tidy, and the other members are beside it. -/
structure Embedding.Tidy (embedding : Embedding) : Prop where
  fragment : ∀ fragment ∈ embedding.fragment, fragment.Tidy
  others : embedding.others.Tidy ["estree"]

/-- The same embedding with some other members of its parts taken out. -/
structure Embedding.Trimmed (old new : Embedding) : Prop where
  fragment : Option.Rel Fragment.Trimmed old.fragment new.fragment
  others : old.others.Trimmed new.others

/-- An embedding that was read is tidy. -/
theorem Embedding.gives_tidy : Gives Embedding.ofJson Embedding.Tidy := by
  intro value embedding h hvalid
  obtain ⟨hfragment⟩ := readFrom_of_ofJson h
  have hmembers := valid_of_object hvalid
  have hprogram := hmembers.optional Fragment.gives_tidy hfragment
  exact ⟨hprogram, OtherMembers.tidy_ofMembers hmembers _⟩

/-- A tidy embedding is written without a repeated key. -/
theorem Embedding.Tidy.writable {embedding : Embedding} (h : embedding.Tidy) :
    embedding.toJson.Writable := by
  refine writable_record h.others ?_ ?_ ?_
  · cases embedding.fragment <;> simp [whenSome]
  · cases embedding.fragment <;> simp [whenSome]
  · cases hfragment : embedding.fragment with
    | none => simp [whenSome]
    | some fragment => simp [whenSome, (h.fragment fragment hfragment).writable]

/-- A tidy embedding stays tidy when other members of its parts are taken out. -/
theorem Embedding.Tidy.trimmed {old new : Embedding} (h : old.Tidy) (htrimmed : old.Trimmed new) :
    new.Tidy where
  fragment :=
    forall_mem_of_optionRel htrimmed.fragment (fun _ _ ht hold => hold.trimmed ht) h.fragment
  others := h.others.trimmed htrimmed.others

/-! ### New programs -/

/-- The program that is made for an import is tidy, whatever the name and the address are. -/
theorem Program.defaultImport_tidy (binding source : String) :
    (Program.defaultImport binding source).Tidy where
  body statement hstatement := by
    obtain rfl := List.mem_singleton.1 hstatement
    refine ⟨fun specifier hspecifier => ?_, OtherMembers.tidy_empty _, OtherMembers.tidy_empty _⟩
    obtain rfl := List.mem_singleton.1 hspecifier
    exact ⟨OtherMembers.tidy_empty _, OtherMembers.tidy_empty _⟩
  comments comments hcomments := by cases hcomments
  others := OtherMembers.tidy_empty _

/-- The program that is made for a reference to a name is tidy. -/
theorem Program.reference_tidy (name : String) : (Program.reference name).Tidy where
  body statement hstatement := by
    obtain rfl := List.mem_singleton.1 hstatement
    exact ⟨OtherMembers.tidy_empty _, OtherMembers.tidy_empty _⟩
  comments comments hcomments := by
    obtain rfl := Option.some.inj hcomments
    simp
  others := OtherMembers.tidy_empty _

/-- The embedding of a tidy program is tidy, as it has no other members. -/
theorem Embedding.ofProgram_tidy {program : Program} (h : program.Tidy) :
    (Embedding.ofProgram program).Tidy where
  fragment fragment hfragment := by
    obtain rfl := Option.some.inj hfragment
    exact h
  others := OtherMembers.tidy_empty _

end Estree

end ImageImports
