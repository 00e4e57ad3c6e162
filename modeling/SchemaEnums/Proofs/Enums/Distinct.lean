import SchemaEnums.Proofs.Enums.Contents
import SchemaEnums.Proofs.Enums.Selection

/-!
# Enums — Distinct

No name stands twice in a generated file (`nothing_declared_twice`).

Within a declaration the members are distinct because a declaration is only made of such values
(`Declaration.make_eq_ok_iff`); that holds also of the tables' enum where it takes over the models'
members (`EnumFile.made_of_build`).  The declarations are distinct because the schema's enums are,
because what is put behind their names keeps them so, and because none of the fixed names ends that
way.
-/

namespace SchemaEnums.Enums
open Schema

variable {names : Names} {selected : List Category}

/-! ### Declarations -/

/-- What a category declares is distinct, if the enums are. -/
theorem Names.nodup_declarationsOf (h : (names.enums.map (·.1)).Nodup) (c : Category) :
    ((names.declarationsOf c).map (·.name)).Nodup := by
  cases c with
  | prismaModel => exact List.nodup_singleton _
  | modelName => exact List.nodup_singleton _
  | tableName => exact List.nodup_singleton _
  | enums =>
      rw [declarationsOf, List.map_map]
      have hmap : (names.enums.map fun e => e.1 ++ "Enum") =
          (names.enums.map (·.1)).map (· ++ "Enum") := by rw [List.map_map]; rfl
      refine hmap ▸ h.map fun n m hnm => ?_
      exact String.append_left_inj _ |>.mp hnm

/-- Enums with distinct names are declared under distinct names, apart from the fixed ones. -/
theorem Names.nodup_declarations (h : (names.enums.map (·.1)).Nodup) (selected : List Category) :
    ((names.declarations selected).map (·.name)).Nodup := by
  have hcategory : ∀ {c n}, n ∈ (if c ∈ selected then names.declarationsOf c else []).map (·.name) →
      Category.declaring n = c := by
    intro c n hn
    obtain ⟨d, hd, rfl⟩ := List.mem_map.mp hn
    split at hd
    case isTrue => exact category_of_mem_declarationsOf hd
    case isFalse => cases hd
  have hall : Category.all.Nodup := by decide
  rw [declarations, Category.collect, List.map_flatMap, List.nodup_flatMap]
  refine ⟨fun c _ => ?_, hall.imp fun hne n hn hn' => ?_⟩
  · split
    case isTrue => exact nodup_declarationsOf h c
    case isFalse => exact List.nodup_nil
  · exact hne ((hcategory hn).symm.trans (hcategory hn'))

/-- The enums of a schema that was read have distinct names. -/
theorem nodup_names_of_read {text : String} {s : Summary} (h : Summary.read text = .ok s) :
    ((Names.ofSummary s).enums.map (·.1)).Nodup := by
  obtain ⟨d, hd, rfl⟩ := map_eq_ok_iff.mp h
  have hnodup := Document.nodup_enum_names (Document.read_eq_ok_iff.mp hd).2
  rw [Names.ofSummary, valuesByName_of_nodup hnodup, List.map_map]
  exact hnodup

/-- **Nothing is declared twice.**  In a file made from a schema the exported names are distinct,
and in each declaration the members' identifiers are. -/
theorem nothing_declared_twice (text : String) (s : Summary) (selected : List Category)
    (f : EnumFile) (hs : Summary.read text = .ok s)
    (hf : EnumFile.build (Names.ofSummary s) selected = .ok f) :
    f.exports.Nodup ∧ ∀ d ∈ f.declarations, (d.members.map (·.identifier)).Nodup := by
  refine ⟨?_, fun d hd => (EnumFile.made_of_build hf d hd).distinct⟩
  obtain ⟨-, rfl⟩ := (EnumFile.build_settles (Names.ofSummary s) selected).eq_ok_iff.mp hf
  exact Names.nodup_declarations (nodup_names_of_read hs) selected

/-- A schema whose enums are called like two of the fixed enums. -/
def fixedNamesText : String :=
  "model A {}
enum ModelName {
X
}
enum TableName {
X
Y
}"

/-- What `fixedNamesText` says. -/
def fixedNamesSummary : Summary :=
  ⟨[⟨"A", none⟩], [⟨"ModelName", ["X"]⟩, ⟨"TableName", ["X", "Y"]⟩]⟩

/-- The file for `fixedNamesText`, without the client's names. -/
def fixedNamesFile : EnumFile :=
  ⟨[⟨"ModelName", [⟨"A", "A"⟩]⟩, ⟨"TableName", [⟨"A", "A"⟩]⟩, ⟨"ModelNameEnum", [⟨"X", "X"⟩]⟩,
    ⟨"TableNameEnum", [⟨"X", "X"⟩, ⟨"Y", "Y"⟩]⟩]⟩

theorem nothing_declared_twice_fixed :
    Summary.read fixedNamesText = .ok fixedNamesSummary ∧
      EnumFile.build (Names.ofSummary fixedNamesSummary) [.enums, .tableName, .modelName] =
        .ok fixedNamesFile ∧
      fixedNamesFile.exports = ["ModelName", "TableName", "ModelNameEnum", "TableNameEnum"] ∧
      fixedNamesFile.exports.Nodup := by
  have hread : Summary.read fixedNamesText = .ok fixedNamesSummary := by decide +kernel
  have hbuild : EnumFile.build (Names.ofSummary fixedNamesSummary)
      [.enums, .tableName, .modelName] = .ok fixedNamesFile := by decide +kernel
  exact ⟨hread, hbuild, rfl, (nothing_declared_twice fixedNamesText fixedNamesSummary
    [.enums, .tableName, .modelName] fixedNamesFile hread hbuild).1⟩

end SchemaEnums.Enums
