import ImageImports.Proofs.Image.Bindings
import ImageImports.Proofs.Image.Url
import ImageImports.Proofs.Json.Spelling

/-!
# `ImageImports.Proofs.Metadata`: the two readers of metadata

`Metadata.ofJson` reads metadata strictly, `Metadata.ofValue` reads them leniently. The strict
reader also accepts a record that is given as the list of its fields. The lenient one goes by keys
alone, so it finds nothing in a list. Of the values that the strict reader accepts, these are the
only ones about which the two differ: in a value that is keyed (`Metadata.isKeyed`) both find the
same directory, and in any other the lenient reader finds none (`directory?_ofValue_of_ofJson`).
What is written is keyed, and the strict reader reads it back as it was.

A pass over a document knows of its metadata nothing but the directory, and there is a document in
which every directory shows (`forall_importImages_eq_iff`). So the readers can be told apart by what
becomes of documents exactly where they find different directories.

Main statement: `Metadata.readers_agree_iff`.
-/

set_option autoImplicit false

namespace ImageImports

open Json Mdast

/-! ### Reading by keys -/

namespace Json

/-- Whether a value is a list. -/
def isList : Json → Bool
  | .array _ => true
  | _ => false

section
variable {α : Type} {read : Json → Except Mismatch α} {value : Json}

/-- A record of one field that is not given as a list was read from what stands under its key. -/
theorem member?_of_readSingleField {name field : String} {absent a : α}
    (h : readSingleField name field absent read value = .ok a) (hkeyed : value.isList = false) :
    Metadata.member? value field = none ∧ a = absent
      ∨ ∃ found, Metadata.member? value field = some found ∧ read found = .ok a := by
  cases value with
  | object members => exact Members.defaulted_ok (Checked.settle_ok_iff.1 h)
  | array items => cases hkeyed
  | _ => cases h

/-- A nullable value that is read is null or what its own reader makes of it. -/
theorem readNullable_ok {found : Option α} (h : readNullable read value = .ok found) :
    value = .null ∧ found = none ∨ ∃ a, read value = .ok a ∧ found = some a := by
  cases value with
  | null => exact .inl ⟨rfl, (Except.ok.inj h).symm⟩
  | _ =>
      obtain ⟨a, hread, rfl⟩ := map_ok_iff.1 h
      exact .inr ⟨a, hread, rfl⟩

/-- Nothing stands under a key of a list. -/
theorem member?_of_isList (h : value.isList = true) (key : String) :
    Metadata.member? value key = none := by
  cases value with
  | array items => rfl
  | _ => cases h

end

end Json

/-- The directory that the strict reader finds in keyed data is what stands under its key. -/
theorem SourceData.sourceFileDir_of_ofJson {value : Json} {data : SourceData}
    (h : ofJson value = .ok data) (hkeyed : value.isList = false) :
    (Metadata.member? value "sourceFileDir" >>= string?) = data.sourceFileDir := by
  obtain ⟨directory, hread, rfl⟩ := map_ok_iff.1 h
  rcases member?_of_readSingleField hread hkeyed with ⟨hnone, rfl⟩ | ⟨found, hfound, hread⟩
  · rw [hnone]
    rfl
  rw [hfound]
  rcases readNullable_ok hread with ⟨rfl, rfl⟩ | ⟨text, htext, rfl⟩
  · rfl
  · rw [readString_ok htext]
    rfl

namespace Metadata

/-- Whether a value gives metadata by keys: neither they nor the data in them are given as the list
of their fields. -/
def isKeyed (value : Json) : Bool :=
  !value.isList && !(member? value "rawDocumentData").any Json.isList

/-- The lenient reader finds the directory that stands under the two keys one after the other.
Anything but a text, and the empty text, count as none. -/
theorem directory?_ofValue (value : Json) :
    (ofValue value).directory?
      = (member? value "rawDocumentData" >>= (member? · "sourceFileDir") >>= string?).filter
          (· ≠ "") := by
  unfold ofValue
  split
  · rename_i directory hfound
    rw [hfound]
    rfl
  · rename_i hnone
    rw [hnone]
    rfl

/-- In what the strict reader accepts, the lenient one finds the same directory if the value is
keyed, and none if it is not. -/
theorem directory?_ofValue_of_ofJson {value : Json} {metadata : Metadata}
    (h : ofJson value = .ok metadata) :
    (ofValue value).directory? = if isKeyed value then metadata.directory? else none := by
  obtain ⟨data, hread, rfl⟩ := map_ok_iff.1 h
  rw [directory?_ofValue]
  cases hlist : value.isList with
  | true => simp [isKeyed, hlist, member?_of_isList hlist]
  | false =>
      rcases member?_of_readSingleField hread hlist with ⟨hnone, rfl⟩ | ⟨found, hfound, hread⟩
      · simp [isKeyed, hlist, hnone, directory?]
      rcases readNullable_ok hread with ⟨rfl, rfl⟩ | ⟨data, hdata, rfl⟩
      -- `null` is no data at all to the strict reader, and has no keys for the lenient one.
      · have hnothing : member? .null "sourceFileDir" = none := rfl
        simp [isKeyed, hlist, hfound, directory?, hnothing]
      cases hinner : found.isList with
      | true => simp [isKeyed, hlist, hfound, hinner, member?_of_isList hinner]
      | false =>
          have hdirectory := SourceData.sourceFileDir_of_ofJson hdata hinner
          simp [isKeyed, hlist, hfound, hinner, directory?, hdirectory]

/-! ### Reading what is written -/

/-- Metadata that are written are read back as they were, by the strict reader. -/
theorem ofJson_toJson (metadata : Metadata) : ofJson metadata.toJson = .ok metadata := by
  rcases metadata with ⟨_ | ⟨_ | directory⟩⟩ <;> rfl

/-- Metadata are written by their keys and never as the list of their fields. -/
theorem isKeyed_toJson (metadata : Metadata) : isKeyed metadata.toJson = true := by
  rcases metadata with ⟨_ | ⟨_ | directory⟩⟩ <;> rfl

/-- The text of metadata, compact or pretty, is the text of their written form. -/
theorem parse_print_toJson (metadata : Metadata) (isPretty : Bool) :
    Json.parse (if isPretty then metadata.toJson.pretty else metadata.toJson.compact)
      = .ok metadata.toJson := by
  have hfits : metadata.toJson.Fits 2 := by
    rcases metadata with ⟨_ | ⟨_ | directory⟩⟩ <;> simp [toJson, SourceData.toJson]
  have hsame : metadata.toJson.normalize.reread = metadata.toJson := by
    rcases metadata with ⟨_ | ⟨_ | directory⟩⟩ <;> rfl
  rw [(Json.parse_print isPretty hfits).1 (hfits.mono (by decide)), hsame]

end Metadata

/-! ### What a pass knows of its metadata -/

/-- A document whose only image has a bare address. -/
def bareDocument : Root := { children := [.image "a.png" ""], others := .empty }

/-- What an image is imported as depends on nothing but the directory of the metadata. -/
theorem target?_congr {metadata other : Metadata} (h : metadata.directory? = other.directory?)
    (options : ImportOptions) (url : String) :
    PassSettings.target? { metadata, options } url
      = PassSettings.target? { metadata := other, options } url := by
  simp only [PassSettings.target?, importTarget?, h]

/-- The part of a target that the directory adds is the directory with a slash behind it, or
nothing. -/
theorem Metadata.directoryPart_eq (metadata : Metadata) :
    metadata.directoryPart = (metadata.directory?.map (· ++ "/")).getD "" := by
  unfold directoryPart directory?
  show _ = (((metadata.rawDocumentData.bind SourceData.sourceFileDir).filter _).map _).getD ""
  cases metadata.rawDocumentData.bind SourceData.sourceFileDir with
  | none => rfl
  | some directory => by_cases hempty : directory = "" <;> simp [Option.filter, hempty]

/-- The part that the directory adds shows the directory. An empty directory counts as none, so it
cannot be taken for one. -/
theorem Metadata.directory?_eq_of_directoryPart {metadata other : Metadata}
    (h : metadata.directoryPart = other.directoryPart) :
    metadata.directory? = other.directory? := by
  rw [directoryPart_eq, directoryPart_eq] at h
  cases hfirst : metadata.directory? with
  | none =>
      cases hsecond : other.directory? with
      | none => rfl
      | some directory => simp [hfirst, hsecond] at h
  | some directory =>
      cases hsecond : other.directory? with
      | none => simp [hfirst, hsecond] at h
      | some directory' => simpa [hfirst, hsecond] using h

/-- The pass over the bare document puts one import statement first, and the target in it begins
with the directory. -/
theorem head?_importImages_bareDocument (metadata : Metadata) :
    (importImages { metadata } bareDocument).children.head?
      = some (Node.defaultImport (importName 0 (bareTarget metadata "a.png"))
          (bareTarget metadata "a.png")) := by
  have htarget : PassSettings.target? { metadata } "a.png" = some (bareTarget metadata "a.png") :=
    (importTarget?_eq_some_iff _ _ _ _).2
      (.inr ⟨by decide +kernel, by decide +kernel, rfl, rfl⟩)
  simp [importImages, bareDocument, Node.image, importNodes, importNode, htarget, ImportList.insert,
    ImportList.nodes, ImportList.importsFrom]

/-- Two metadata make the same of every document exactly if they give the same directory. Only one
direction needs a document: the one with a single bare image, whose import shows the directory. -/
theorem forall_importImages_eq_iff {metadata other : Metadata} :
    (∀ options root, importImages { metadata, options } root
        = importImages { metadata := other, options } root)
      ↔ metadata.directory? = other.directory? := by
  constructor
  · intro h
    -- The path of the one import tells the directory.
    have hhead := congrArg (fun root => root.children.head?.map Node.defaultImports)
      (h {} bareDocument)
    simp only [head?_importImages_bareDocument, Option.map_some,
      defaultImports_defaultImport] at hhead
    have htarget : bareTarget metadata "a.png" = bareTarget other "a.png" := by
      simpa using congrArg (fun pairs => pairs.map (List.map Prod.snd)) hhead
    refine Metadata.directory?_eq_of_directoryPart ?_
    simpa [bareTarget] using htarget
  · intro h options root
    exact importImages_congr (target?_congr h options) root

/-! ### Agreement -/

namespace Metadata

/-- Where the strict reader accepts a value, the lenient one finds the same directory if the value
is keyed and none if it is not. A pass makes the same of every document with what either has read
exactly if the value is keyed or the strict reader has found no directory. In the written form of
metadata, and in its text, the lenient reader finds their directory. -/
theorem readers_agree_iff :
    (∀ value metadata, ofJson value = .ok metadata →
      (isKeyed value = true → (ofValue value).directory? = metadata.directory?)
        ∧ (isKeyed value = false → (ofValue value).directory? = none)
        ∧ ((∀ options root, importImages { metadata := ofValue value, options } root
              = importImages { metadata, options } root)
            ↔ isKeyed value = true ∨ metadata.directory? = none))
      ∧ ∀ (metadata : Metadata) (isPretty : Bool),
        (ofValue metadata.toJson).directory? = metadata.directory?
          ∧ (Json.parse (if isPretty then metadata.toJson.pretty
              else metadata.toJson.compact)).map (fun value => (ofValue value).directory?)
            = .ok metadata.directory? := by
  constructor
  · intro value metadata h
    have hdirectory := directory?_ofValue_of_ofJson h
    -- Passes agree on all documents exactly if the directories agree.
    rw [forall_importImages_eq_iff, hdirectory]
    cases isKeyed value with
    | true => simp
    | false => simp [eq_comm]
  · intro metadata isPretty
    have hwritten := directory?_ofValue_of_ofJson (ofJson_toJson metadata)
    rw [isKeyed_toJson, if_pos rfl] at hwritten
    refine ⟨hwritten, ?_⟩
    rw [parse_print_toJson]
    exact congrArg Except.ok hwritten

/-- The readers agree about keyed data with a member that neither knows. -/
theorem readers_agree_iff_docs :
    let value := Json.object [("rawDocumentData",
      .object [("sourceFileDir", .string "docs"), ("flattenedPath", .string "docs/a")])]
    (ofValue value).directory? = some "docs"
      ∧ ∀ options root, importImages { metadata := ofValue value, options } root
        = importImages { metadata := inDirectory "docs", options } root := by
  intro value
  have hread : ofJson value = .ok (inDirectory "docs") := rfl
  obtain ⟨hsame, -, hpass⟩ := readers_agree_iff.1 value _ hread
  have hkeyed : isKeyed value = true := rfl
  exact ⟨hsame hkeyed, hpass.2 (.inl hkeyed)⟩

/-- In metadata, and in data, that are given as the list of their fields the strict reader finds a
directory and the lenient one does not. -/
theorem directory?_ofValue_list_ne :
    let whole := Json.array [.array [.string "docs"]]
    let inner := Json.object [("rawDocumentData", .array [.string "docs"])]
    ofJson whole = .ok (inDirectory "docs")
      ∧ (ofValue whole).directory? ≠ (inDirectory "docs").directory?
      ∧ ofJson inner = .ok (inDirectory "docs")
      ∧ (ofValue inner).directory? ≠ (inDirectory "docs").directory? :=
  ⟨rfl, by decide, rfl, by decide⟩

end Metadata

end ImageImports
