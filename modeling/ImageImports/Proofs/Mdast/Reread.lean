import ImageImports.Proofs.Json.Nesting
import ImageImports.Proofs.Mdast.Grammar

/-!
# `ImageImports.Proofs.Mdast.Reread`: nodes do not depend on floating point numbers

Reading a text back can change the floating point numbers of a value (`Json.reread`). No shape that
is asked of a node looks at these: a number counts only where it is an integer, in the depth of a
heading and in the position of a type. So every shape is kept (`Json.Kept`), and an acceptable value
stays acceptable (`Acceptable.reread`).
-/

set_option autoImplicit false

namespace ImageImports

open Json

/-! ### Shapes -/

namespace Json

/-- A shape that a value keeps when its text is read back. Reading back changes floating point
numbers only, so a shape that does not look at them is kept. -/
def Kept (shape : Json → Prop) : Prop := ∀ value : Json, shape value → shape value.reread

/-- Reading back changes floating point numbers only: an integer stays as it is. -/
theorem reread_integer (n : Int) : (Json.integer n).reread = Json.integer n := by
  rw [Json.integer, reread, Number.reread]

/-- A text stays a text. -/
theorem kept_isText : Kept IsText := by
  rintro _ ⟨text, rfl⟩
  exact ⟨text, by rw [reread]⟩

/-- An object stays an object. Its values may change, but no shape here asks about all of them. -/
theorem kept_isObject : Kept IsObject := by
  rintro _ ⟨members, rfl⟩
  exact ⟨_, by rw [reread]⟩

/-- Null is kept, so a shape that is kept may as well be optional. -/
theorem Kept.nullOr {shape : Json → Prop} (h : Kept shape) : Kept (NullOr shape) := by
  rintro value (rfl | hvalue)
  · exact .inl (by rw [reread])
  · exact .inr (h value hvalue)

/-- A list keeps its length and its order, so lists of a shape that is kept are kept. -/
theorem Kept.listOf {shape : Json → Prop} (h : Kept shape) : Kept (ListOf shape) := by
  rintro _ ⟨items, rfl, hitems⟩
  refine ⟨items.map reread, by rw [reread, rereadItems_eq_map], ?_⟩
  intro item hitem
  obtain ⟨found, hfound, rfl⟩ := List.mem_map.1 hitem
  exact h found (hitems found hfound)

/-- A tag is kept in both of its forms: the name is a text and the position an integer. -/
theorem kept_isTag {α : Type} (variants : List (String × α)) (a : α) : Kept (IsTag variants a) := by
  rintro _ ⟨place, name, hget, rfl | rfl⟩
  · exact ⟨place, name, hget, .inl (by rw [reread])⟩
  · exact ⟨place, name, hget, .inr (reread_integer place)⟩

/-- A choice is kept in each of its forms, as a text or as a record with the name as its only
key. -/
theorem kept_isChoice (names : List String) : Kept (IsChoice names) := by
  rintro _ ⟨name, hname, rfl | rfl | rfl⟩
  · exact ⟨name, hname, .inl (by rw [reread])⟩
  · exact ⟨name, hname, .inr (.inl (by simp [reread, rereadMembers]))⟩
  · exact ⟨name, hname, .inr (.inr (by simp [reread, rereadMembers]))⟩

end Json

namespace Members

variable {members : Members} {key : String} {shape : Json → Prop}

/-- A required member of a shape that is kept stays one. -/
theorem Has.reread (h : members.Has key shape) (hkept : Kept shape) :
    (members.mapValues Json.reread).Has key shape := by
  obtain ⟨value, hvalue, hshape⟩ := h
  exact ⟨value.reread, by rw [last?_mapValues, hvalue]; rfl, hkept value hshape⟩

/-- An optional member of a shape that is kept stays one. Where there was none there is none
afterwards, since reading back adds no keys. -/
theorem MayHave.reread (h : members.MayHave key shape) (hkept : Kept shape) :
    (members.mapValues Json.reread).MayHave key shape := by
  intro value hvalue
  rw [last?_mapValues] at hvalue
  obtain ⟨found, hfound, rfl⟩ := Option.map_eq_some_iff.1 hvalue
  exact hkept found (h found hfound)

/-- A text stands under the same key afterwards. -/
theorem last?_reread_string {text : String} (h : members.last? key = some (.string text)) :
    (members.mapValues Json.reread).last? key = some (.string text) := by
  rw [last?_mapValues, h, Option.map_some, Json.reread]

/-- A list stands under the same key afterwards, with its items read back. -/
theorem last?_reread_array {items : List Json} (h : members.last? key = some (.array items)) :
    (members.mapValues Json.reread).last? key = some (.array (items.map Json.reread)) := by
  rw [last?_mapValues, h, Option.map_some, Json.reread, rereadItems_eq_map]

/-- Where nothing stood, nothing stands afterwards. -/
theorem last?_reread_none (h : members.last? key = none) :
    (members.mapValues Json.reread).last? key = none := by
  rw [last?_mapValues, h, Option.map_none]

end Members

namespace Mdast

open Members

/-! ### Fields of nodes -/

/-- A depth is an integer, so it is kept. -/
theorem kept_isDepth : Kept IsDepth := by
  rintro _ ⟨depth, hdepth, rfl⟩
  exact ⟨depth, hdepth, reread_integer depth⟩

variable {members : Members}

/-- Members that fit an expression fit one afterwards. -/
theorem FitsExpression.reread (h : FitsExpression members) :
    FitsExpression (members.mapValues Json.reread) :=
  ⟨h.1.reread kept_isText, h.2.reread kept_isObject.nullOr⟩

/-- The value of an attribute stays one: a text is kept, and so are the tag and the members of an
expression. -/
theorem kept_isAttributeValue : Kept IsAttributeValue := by
  rintro value (htext | ⟨members, rfl, hexpression⟩)
  · exact .inl (kept_isText value htext)
  · exact .inr ⟨_, by rw [Json.reread, rereadMembers_eq_mapValues], hexpression.reread⟩

/-- An attribute stays one, under the same tag. -/
theorem kept_isAttribute : Kept IsAttribute := by
  rintro _ ⟨members, rfl, kind, htag, hfits⟩
  refine ⟨_, by rw [Json.reread, rereadMembers_eq_mapValues], kind,
    htag.reread (kept_isTag _ _), ?_⟩
  cases kind with
  | named => exact ⟨hfits.1.reread kept_isText, hfits.2.reread kept_isAttributeValue.nullOr⟩
  | spread => exact FitsExpression.reread hfits

/-- Members that fit a leaf of a known type still fit it afterwards. Each field asks for a shape
that is kept. -/
theorem LeafKind.Fits.reread {kind : LeafKind} (h : kind.Fits members) :
    kind.Fits (members.mapValues Json.reread) := by
  cases kind with
  | thematicBreak => trivial
  | lineBreak => trivial
  | text kind => exact Has.reread h kept_isText
  | definition => exact ⟨h.1.reread kept_isText, h.2.reread kept_isText⟩
  | image => exact Has.reread h kept_isText
  | imageReference => exact ⟨h.1.reread kept_isText, h.2.reread (kept_isChoice _)⟩
  | footnoteReference => exact Has.reread h kept_isText
  | esm => exact FitsExpression.reread h
  | expression placement => exact FitsExpression.reread h

/-- Members that fit a branch of a known type still fit it afterwards. -/
theorem BranchKind.Fits.reread {kind : BranchKind} (h : kind.Fits members) :
    kind.Fits (members.mapValues Json.reread) := by
  cases kind with
  | heading => exact Has.reread h kept_isDepth
  | grouping kind => trivial
  | footnoteDefinition => exact Has.reread h kept_isText
  | link => exact Has.reread h kept_isText
  | linkReference => exact ⟨h.1.reread kept_isText, h.2.reread (kept_isChoice _)⟩
  | element placement =>
      exact ⟨h.1.reread kept_isText.nullOr, h.2.reread kept_isAttribute.listOf⟩

/-! ### Nodes -/

/-- Members that fit a known type with certain children still fit it, with these children read
back. -/
theorem FitsKind.reread {kind : NodeKind} {items : List Json} (h : FitsKind members kind items) :
    FitsKind (members.mapValues Json.reread) kind (items.map Json.reread) := by
  refine ⟨h.tag.reread (kept_isTag _ _), ?_⟩
  cases kind with
  | leaf kind => exact ⟨h.fields.1.reread, by rw [h.fields.2]; rfl⟩
  | branch kind =>
      refine ⟨h.fields.1.reread, h.fields.2.imp last?_reread_array ?_⟩
      rintro ⟨hoptional, habsent, rfl⟩
      exact ⟨hoptional, last?_reread_none habsent, rfl⟩

/-- Members that fit an unknown node still fit one, under the same type. -/
theorem FitsUnknown.reread {type : String} {items : Option (List Json)}
    (h : FitsUnknown members type items) :
    FitsUnknown (members.mapValues Json.reread) type (items.map (List.map Json.reread)) := by
  refine ⟨last?_reread_string h.type, h.children.imp ?_ ?_⟩
  · rintro ⟨rfl, habsent | hnull⟩
    · exact ⟨rfl, .inl (last?_reread_none habsent)⟩
    · exact ⟨rfl, .inr (by rw [last?_mapValues, hnull, Option.map_some, Json.reread])⟩
  · rintro ⟨listed, rfl, hlisted⟩
    exact ⟨_, rfl, last?_reread_array hlisted⟩

/-- An acceptable value stays acceptable when its text is read back, of the same type at every
level. -/
theorem Acceptable.reread {value : Json} (h : Acceptable value) : Acceptable value.reread := by
  induction h with
  | @typed members kind items hfits _ ih =>
      rw [Json.reread, rereadMembers_eq_mapValues]
      refine .typed hfits.reread fun item hitem => ?_
      obtain ⟨found, hfound, rfl⟩ := List.mem_map.1 hitem
      exact ih found hfound
  | @unknown members type items hfits _ ih =>
      rw [Json.reread, rereadMembers_eq_mapValues]
      refine .unknown hfits.reread fun item hitem => ?_
      cases items with
      | none => simp at hitem
      | some items =>
          obtain ⟨found, hfound, rfl⟩ := List.mem_map.1 hitem
          exact ih found hfound

end Mdast

end ImageImports
