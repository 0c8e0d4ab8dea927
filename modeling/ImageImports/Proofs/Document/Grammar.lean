import ImageImports.Document
import ImageImports.Proofs.Mdast.Grammar

/-!
# `ImageImports.Proofs.Document.Grammar`: the texts that are documents

A JSON text is refused without a further look if its value names itself something other than a root
(`NamesItself`). Any other text is accepted exactly if its value is an object with a list of
acceptable nodes as its children (`IsDocument`), and the nodes of the document are what these items
stand for (`StandsFor`). So the one thing that is asked of a document beside its own shape is that
of every object in a list of children; a defect in any other member of a node is no reason to refuse
the document.

Main statement: `parse_grammar`.
-/

set_option autoImplicit false

namespace ImageImports.Document

open Json Mdast Members

/-- The value is an object whose type is the given text. Of a repeated type the last one counts.
This is all that `parse_document` looks at before it reads the nodes. -/
def NamesItself (value : Json) (kind : String) : Prop :=
  ∃ members : Members, value = .object members ∧ members.last? "type" = some (.string kind)

/-- The value is an object whose children are a list of acceptable nodes. It does not ask for a
type. -/
def IsDocument (value : Json) : Prop :=
  ∃ (members : Members) (items : List Json), value = .object members
    ∧ members.last? "children" = some (.array items) ∧ ∀ item ∈ items, Acceptable item

/-- The nodes of the document are what the children of the value stand for, one by one. It leaves
open how the members beside the children are kept; that is said by `Root.toJson_eq_settledRoot`. -/
def StandsFor (value : Json) (root : Root) : Prop :=
  ∃ (members : Members) (items : List Json), value = .object members
    ∧ members.last? "children" = some (.array items)
    ∧ List.Forall₂ Decodes items root.children

/-- The type that is looked up in a value is the one that the value names itself. -/
theorem declaredType?_eq_some_iff {value : Json} {kind : String} :
    declaredType? value = some kind ↔ NamesItself value kind := by
  cases value with
  | object members =>
      have hstring : ∀ found : Json, string? found = some kind ↔ found = .string kind := by
        intro found
        cases found <;> simp [string?]
      simp [declaredType?, NamesItself, Option.bind_eq_some_iff, hstring]
  | _ => simp [declaredType?, NamesItself]

/-! ### Values -/

/-- A list of children is read exactly if each of its items is acceptable. -/
theorem exists_listOfJson_iff {value : Json} (hnormal : value.normalize = value) :
    (∃ nodes, Node.listOfJson value = .ok nodes) ↔ ListOf Acceptable value := by
  cases value with
  | array items =>
      have hread : (∃ nodes, Node.listOfJson (.array items) = .ok nodes)
          ↔ ∃ nodes, Node.allOfJson? items = some nodes := by
        rw [Node.listOfJson]
        cases Node.allOfJson? items <;> simp
      rw [hread, Node.exists_allOfJson?_iff]
      simp only [ListOf, Json.array.injEq, exists_eq_left']
      exact forall₂_congr fun item hitem => Node.exists_ofJson?_iff (normal_of_mem hnormal hitem)
  | _ => simp [Node.listOfJson, wrongType, ListOf]

/-- The reader of documents takes the values that are documents. -/
theorem exists_rootOfJson_iff {value : Json} (hnormal : value.normalize = value) :
    (∃ root, Root.ofJson value = .ok root) ↔ IsDocument value := by
  cases value with
  | object members =>
      have hsorted := sorted_of_normal hnormal
      have hvalues := normalValues_of_normal hnormal
      have hread : (∃ root, Root.ofJson (.object members) = .ok root)
          ↔ ∃ nodes, Members.required members "children" Node.listOfJson = .ok nodes :=
        (exists_bind_iff_of_ok fun _ => ⟨_, rfl⟩).trans Checked.exists_settle_iff
      rw [hread, hsorted.exists_required_iff "children" fun value hvalue =>
        exists_listOfJson_iff (hvalues _ value hvalue)]
      simp [IsDocument, Has, ListOf]
  | _ => simp [Root.ofJson, readRecord, wrongType, bind, Except.bind, IsDocument]

/-- A document that is read consists of what the children of the value stand for. -/
theorem standsFor_of_rootOfJson {value : Json} (hnormal : value.normalize = value) {root : Root}
    (h : Root.ofJson value = .ok root) : StandsFor value root := by
  obtain ⟨members, items, rfl, hlisted, hall, -⟩ := Root.ofJson_ok h
  have hitems := normalValues_of_normal hnormal _ _ hlisted
  have hdecodes : ∀ item ∈ items, ∀ node, Node.ofJson? item = some node → Decodes item node :=
    fun item hitem node hread =>
      (Node.decodes_of_ofJson? item (normal_of_mem hitems hitem) node hread).2
  have hboth := (List.forall₂_and_left items root.children).2
    ⟨hdecodes, Node.allOfJson?_eq_some_iff.1 hall⟩
  exact ⟨members, items, rfl, hlisted, hboth.imp fun item node h => h.1 node h.2⟩

/-! ### Readers of values -/

/-- Reading the shape of a document succeeds where the reader of documents does, and with its
result. -/
theorem shape_eq_ok_iff {value : Json} {root : Root} :
    ofJson.shape value = .ok root ↔ Root.ofJson value = .ok root := by
  unfold ofJson.shape
  cases Root.ofJson value <;> simp

/-- Reading the shape of a document fails with a JSON error exactly if the reader of documents
fails. -/
theorem exists_shape_eq_json_iff {value : Json} :
    (∃ cause, ofJson.shape value = .error (.json cause))
      ↔ ¬ ∃ root, Root.ofJson value = .ok root := by
  unfold ofJson.shape
  cases Root.ofJson value <;> simp

/-- The shape of a document is never a reason to say that it is no root. -/
theorem shape_ne_notARoot (value : Json) (kind : String) :
    ofJson.shape value ≠ .error (.notARoot kind) := by
  unfold ofJson.shape
  cases Root.ofJson value <;> simp

/-- A value that does not name itself something other than a root is read for its shape alone. -/
theorem ofJson_of_root {value : Json} (h : ∀ kind, NamesItself value kind → kind = "root") :
    ofJson value = ofJson.shape value := by
  unfold ofJson
  cases hkind : declaredType? value with
  | none => rfl
  | some kind =>
      obtain rfl := h kind (declaredType?_eq_some_iff.1 hkind)
      rfl

/-- A value is refused for its type exactly if it names itself something other than a root. -/
theorem ofJson_eq_notARoot_iff {value : Json} {kind : String} :
    ofJson value = .error (.notARoot kind) ↔ NamesItself value kind ∧ kind ≠ "root" := by
  rw [← declaredType?_eq_some_iff]
  unfold ofJson
  cases declaredType? value with
  | none => simp [shape_ne_notARoot]
  | some found =>
      by_cases hroot : found = "root"
      · subst hroot
        exact ⟨fun h => absurd h (shape_ne_notARoot value kind),
          fun h => absurd (Option.some.inj h.1).symm h.2⟩
      · simp only [if_neg hroot, Except.error.injEq, ParseError.notARoot.injEq, Option.some.injEq]
        exact ⟨fun h => ⟨h, h ▸ hroot⟩, fun h => h.1⟩

/-- Only what is read for its shape is read at all. -/
theorem rootOfJson_of_ofJson {value : Json} {root : Root} (h : ofJson value = .ok root) :
    Root.ofJson value = .ok root := by
  unfold ofJson at h
  cases hkind : declaredType? value with
  | none =>
      rw [hkind] at h
      exact shape_eq_ok_iff.1 h
  | some kind =>
      rw [hkind] at h
      by_cases hroot : kind = "root"
      · exact shape_eq_ok_iff.1 (by simpa [hroot] using h)
      · simp [hroot] at h

/-! ### The result -/

/-- Which texts are documents. A text that is no JSON text is refused with the error of the JSON
reader. Of the JSON texts, those whose value names itself something other than a root are refused
for that, whatever else is in them; the others are accepted exactly if their value is a document,
and refused as JSON errors if not. An accepted document consists of the nodes that the children of
the value stand for. -/
theorem parse_grammar (text : String) :
    (∀ cause, Json.parse text = .error cause → parse text = .error (.json cause))
      ∧ ∀ value, Json.parse text = .ok value →
        (∀ kind, parse text = .error (.notARoot kind) ↔ NamesItself value kind ∧ kind ≠ "root")
        ∧ ((∀ kind, NamesItself value kind → kind = "root") →
            ((∃ root, parse text = .ok root) ↔ IsDocument value)
            ∧ ((∃ cause, parse text = .error (.json cause)) ↔ ¬ IsDocument value))
        ∧ ∀ root, parse text = .ok root → StandsFor value root := by
  constructor
  · intro cause h
    rw [parse, h]
  · intro value h
    -- The value of a text comes in normal form, and everything about values is said of these.
    obtain ⟨written, -, hwritten⟩ := bind_ok_iff.1 h
    have hnormal : value.normalize = value := by
      rw [← Except.ok.inj hwritten, normalize_normalize]
    have hparse : parse text = ofJson value := by rw [parse, h]
    rw [hparse]
    refine ⟨fun kind => ofJson_eq_notARoot_iff, fun hroot => ?_, fun root hread => ?_⟩
    · have haccepted := exists_rootOfJson_iff hnormal
      rw [ofJson_of_root hroot, exists_shape_eq_json_iff, haccepted]
      exact ⟨by simp only [shape_eq_ok_iff, haccepted], Iff.rfl⟩
    · exact standsFor_of_rootOfJson hnormal (rootOfJson_of_ofJson hread)

/-- A document of a break, given by its position, and an image without an address. The image is no
reason to refuse it. -/
theorem parse_grammar_image :
    let text :=
      "\x7b\"children\":[\x7b\"type\":20\x7d,\x7b\"type\":\"image\",\"alt\":\"x\"\x7d]\x7d"
    ∃ value root, Json.parse text = .ok value ∧ parse text = .ok root
      ∧ IsDocument value ∧ StandsFor value root
      ∧ root.children.map Node.isTyped = [true, false] := by
  intro text
  -- One computation shows that the text is read; all else follows from the general statement.
  have hcomputed : (match parse text with
      | .ok root => root.children.map Node.isTyped == [true, false]
      | .error _ => false) = true := by decide +kernel
  cases hread : parse text with
  | error cause => simp [hread] at hcomputed
  | ok root =>
      have htyped : root.children.map Node.isTyped = [true, false] := by
        simpa [hread] using hcomputed
      cases hvalue : Json.parse text with
      | error cause =>
          have hrefused := (parse_grammar text).1 cause hvalue
          rw [hread] at hrefused
          cases hrefused
      | ok value =>
          have hgrammar := (parse_grammar text).2 value hvalue
          have hroot : ∀ kind, NamesItself value kind → kind = "root" := by
            intro kind hkind
            by_contra hne
            have hrefused := (hgrammar.1 kind).2 ⟨hkind, hne⟩
            rw [hread] at hrefused
            cases hrefused
          have hdocument := (hgrammar.2.1 hroot).1.1 ⟨root, hread⟩
          exact ⟨value, root, rfl, rfl, hdocument, hgrammar.2.2 root hread, htyped⟩

end ImageImports.Document
