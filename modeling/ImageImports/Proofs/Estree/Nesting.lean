import ImageImports.Estree.Printer
import ImageImports.Proofs.Estree.Content
import ImageImports.Proofs.Json.Nesting

/-!
# `ImageImports.Proofs.Estree.Nesting`: program fragments are written no deeper than they are read

What a reader makes of a value is written with at most as many arrays and objects inside one another
as the value has. Such a reader keeps to the depth (`Json.Keeps`). Each field of a record is written
where it was read, so a record keeps to the depth if its fields do, and so does a list if its items
do.

Main statement: `Embedding.keeps`, for the programs that documents embed.
-/

set_option autoImplicit false

namespace ImageImports

open Json

/-! ### Readers that keep to a depth -/

/-- Whatever depth a value fits, what the reader makes of it is written within that depth. So
writing a value again does not take it beyond the limit of the reader. -/
def Json.Keeps {α : Type} (read : Json → Except Mismatch α) (write : α → Json) : Prop :=
  ∀ (value : Json) (a : α) (depth : Nat),
    read value = .ok a → value.Fits depth → (write a).Fits depth

/-- A list of what keeps to the depth keeps to it. -/
theorem Json.Keeps.list {α : Type} {read : Json → Except Mismatch α} {write : α → Json}
    (h : Keeps read write) : Keeps (readList read) fun items => .array (items.map write) := by
  intro value items depth hread hfits
  obtain ⟨values, rfl, hitems⟩ := readList_ok hread
  obtain ⟨inner, rfl, hvalues⟩ := fits_array.1 hfits
  refine fits_array_succ.2 fun item hitem => ?_
  obtain ⟨a, ha, rfl⟩ := List.mem_map.1 hitem
  have heach : ∀ a ∈ items, (write a).Fits inner :=
    forall_mem_of_readItems
      (fun found hfound a hread => h found a inner hread (hvalues found hfound)) hitems
  exact heach a ha

/-- What is left of a tagged value fits where the value does. -/
theorem Json.fits_of_readTagged {α : Type} {name : String} {form : TagForm}
    {variants : List (String × α)} {value content : Json} {a : α} {depth : Nat}
    (h : readTagged name form variants value = .ok (a, content)) (hfits : value.Fits depth) :
    content.Fits depth := by
  cases value with
  | object members =>
      obtain ⟨inner, rfl, hmembers⟩ := fits_object.1 hfits
      rw [readTagged] at h
      cases htag : Members.required members "type" (readTag form variants) with
      | error complaint => simp [htag] at h
      | ok b =>
          obtain ⟨-, rfl⟩ : b = a ∧ Json.object (Members.keep members (· != "type")) = content := by
            simpa [htag] using h
          exact fun m hm => hmembers m (List.mem_of_mem_filter hm)
  | array items =>
      cases items with
      | nil => simp [readTagged] at h
      | cons tag rest =>
          obtain ⟨inner, rfl, hitems⟩ := fits_array.1 hfits
          obtain ⟨b, -, hb⟩ := map_ok_iff.1 h
          obtain ⟨-, rfl⟩ := Prod.mk.inj hb
          exact fun item hitem => hitems item (List.mem_cons_of_mem _ hitem)
  | _ => simp [readTagged, wrongType] at h

namespace Members

/-- All values of the members fit the depth. This is what an object one level up needs. -/
def AllFit (depth : Nat) (members : Members) : Prop := ∀ m ∈ members, m.2.Fits depth

section
variable {members more : Members} {depth : Nat}

/-- No members fit any depth. -/
@[simp]
theorem allFit_nil : AllFit depth [] := by simp [AllFit]

/-- Members fit a depth if the first value and the rest of them do. -/
@[simp]
theorem allFit_cons {key : String} {value : Json} :
    AllFit depth ((key, value) :: members) ↔ value.Fits depth ∧ members.AllFit depth :=
  List.forall_mem_cons

/-- Two groups of members fit a depth together if each of them does. -/
@[simp]
theorem allFit_append :
    AllFit depth (members ++ more) ↔ members.AllFit depth ∧ more.AllFit depth :=
  List.forall_mem_append

/-- What fits a depth fits every greater one. -/
theorem AllFit.mono {deeper : Nat} (h : members.AllFit depth) (hle : depth ≤ deeper) :
    members.AllFit deeper :=
  fun m hm => (h m hm).mono hle

/-- The members of an object that fits a depth fit one less. -/
theorem allFit_of_fits (h : (Json.object members).Fits depth) :
    ∃ inner, depth = inner + 1 ∧ members.AllFit inner :=
  fits_object.1 h

/-- The members beside a tag in a value that fits a depth fit one less. -/
theorem allFit_of_readTagged {α : Type} {name : String} {form : TagForm}
    {variants : List (String × α)} {value : Json} {a : α}
    (h : readTagged name form variants value = .ok (a, .object members))
    (hfits : value.Fits depth) : ∃ inner, depth = inner + 1 ∧ members.AllFit inner :=
  allFit_of_fits (fits_of_readTagged h hfits)

/-- Other members fit where the members do that they are among. -/
theorem AllFit.others (h : members.AllFit depth) (typed : List String) :
    (OtherMembers.ofMembers typed members).entries.AllFit depth := by
  have hkept : Fits (depth + 1)
      (.object (members.keep fun key => key != "type" && !typed.contains key)) :=
    fun m hm => h m (List.mem_of_mem_filter hm)
  exact fits_object_succ.1 hkept.normalize

/-- A record fits if its fields fit and its other members are among members that fit. -/
theorem AllFit.fits_record (h : members.AllFit depth) {fields : Members}
    (hfields : fields.AllFit depth) (typed : List String) :
    (Json.object (fields ++ (OtherMembers.ofMembers typed members).entries)).Fits (depth + 1) :=
  allFit_append.2 ⟨hfields, h.others typed⟩

variable {α : Type} {key : String} {read : Json → Except Mismatch α} {write : α → Json}

/-- What a required field was read as is written within the depth of the members. -/
theorem AllFit.required (h : members.AllFit depth) (hkeeps : Keeps read write) {a : α}
    (hread : members.required key read = .ok a) : (write a).Fits depth := by
  obtain ⟨value, hvalue, hread⟩ := required_ok hread
  exact hkeeps value a depth hread (h _ (mem_of_last? hvalue))

/-- What an optional field was read as, if it is there, is written within the depth of the
members. -/
theorem AllFit.optional (h : members.AllFit depth) (hkeeps : Keeps read write) {found : Option α}
    (hread : members.optional key read = .ok found) : ∀ a ∈ found, (write a).Fits depth := by
  intro a ha
  obtain ⟨value, hvalue, -, hread⟩ := exists_of_mem_optional hread ha
  exact hkeeps value a depth hread (h _ (mem_of_last? hvalue))

/-- A field that is written only where it has a value takes no depth where it has none. -/
theorem allFit_whenSome {found : Option α} :
    (whenSome key write found).AllFit depth ↔ ∀ a ∈ found, (write a).Fits depth := by
  cases found <;> simp [whenSome]

end

end Members

namespace Estree

open Members

/-! ### Names and literals -/

/-- A name is written within the depth that it was read from. -/
theorem Identifier.keeps : Keeps Identifier.ofJson Identifier.toJson := by
  intro value identifier depth h hfits
  obtain ⟨-⟩ := readFrom_of_ofJson h
  obtain ⟨inner, rfl, hmembers⟩ := allFit_of_fits hfits
  exact hmembers.fits_record (by simp) _

/-- A string literal is written within the depth that it was read from. -/
theorem StringLiteral.keeps : Keeps StringLiteral.ofJson StringLiteral.toJson := by
  intro value literal depth h hfits
  obtain ⟨-, -⟩ := readFrom_of_ofJson h
  obtain ⟨inner, rfl, hmembers⟩ := allFit_of_fits hfits
  exact hmembers.fits_record (by simp [allFit_whenSome]) _

/-! ### Imports -/

/-- A name bound by an import is written within the depth that it was read from, under each of the
three types. -/
theorem ImportSpecifier.keeps (form : TagForm) :
    Keeps (ImportSpecifier.ofJson form) ImportSpecifier.toJson := by
  intro value specifier depth h hfits
  cases readFrom_of_ofJson h with
  | whole htagged hbinding | star htagged hbinding =>
      obtain ⟨inner, rfl, hmembers⟩ := allFit_of_readTagged htagged hfits
      have hlocal := hmembers.required Identifier.keeps hbinding
      exact hmembers.fits_record (by simp [hlocal]) _
  | named htagged himported hbinding =>
      obtain ⟨inner, rfl, hmembers⟩ := allFit_of_readTagged htagged hfits
      have hname := hmembers.required Identifier.keeps himported
      have hlocal := hmembers.required Identifier.keeps hbinding
      exact hmembers.fits_record (by simp [hname, hlocal]) _

/-! ### Statements and programs -/

/-- A statement is written within the depth that it was read from. -/
theorem Statement.keeps (form : TagForm) : Keeps (Statement.ofJson form) Statement.toJson := by
  intro value statement depth h hfits
  cases readFrom_of_ofJson h with
  | importDeclaration htagged hspecifiers hsource =>
      obtain ⟨inner, rfl, hmembers⟩ := allFit_of_readTagged htagged hfits
      have hlist := hmembers.required (ImportSpecifier.keeps .nameOrPosition).list hspecifiers
      have hliteral := hmembers.required StringLiteral.keeps hsource
      exact hmembers.fits_record (by simp [hlist, hliteral]) _
  | expression htagged hidentifier =>
      obtain ⟨inner, rfl, hmembers⟩ := allFit_of_readTagged htagged hfits
      have hname := hmembers.required Identifier.keeps hidentifier
      exact hmembers.fits_record (by simp [hname]) _

/-- A value that is kept as it is fits where it was, since normal form does not nest values
deeper. -/
theorem keeps_canonical : Keeps (fun value => .ok (CanonicalJson.ofJson value))
    CanonicalJson.value := by
  rintro value _ depth ⟨⟩ hfits
  exact hfits.normalize

/-- A program is written within the depth that it was read from. -/
theorem Program.keeps (form : TagForm) : Keeps (Program.ofJson form) Program.toJson := by
  intro value program depth h hfits
  obtain ⟨-, hbody, hcomments⟩ := readFrom_of_ofJson h
  obtain ⟨inner, rfl, hmembers⟩ := allFit_of_fits hfits
  have hstatements := hmembers.required (Statement.keeps form).list hbody
  have hnotes := hmembers.optional keeps_canonical.list hcomments
  exact hmembers.fits_record
    (allFit_append.2 ⟨by simp [hstatements], allFit_whenSome.2 hnotes⟩) _

/-- An embedded program is written within the depth that it was read from. One without a typed form
is written as the value it is. -/
theorem Fragment.keeps : Keeps (fun value => .ok (Fragment.ofJson value)) Fragment.toJson := by
  rintro value _ depth ⟨⟩ hfits
  unfold Fragment.ofJson
  cases hread : Program.ofJson .nameOrPosition value with
  | ok program => exact Program.keeps _ value program depth hread hfits
  | error cause => exact hfits.normalize

/-- An embedding is written within the depth that it was read from. A typed program takes no more
levels than its value had, and any other is written as that value. -/
theorem Embedding.keeps : Keeps Embedding.ofJson Embedding.toJson := by
  intro value embedding depth h hfits
  obtain ⟨hfragment⟩ := readFrom_of_ofJson h
  obtain ⟨inner, rfl, hmembers⟩ := allFit_of_fits hfits
  have hprogram := hmembers.optional Fragment.keeps hfragment
  exact hmembers.fits_record (allFit_whenSome.2 hprogram) _

end Estree

end ImageImports
