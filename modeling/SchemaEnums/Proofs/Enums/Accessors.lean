import SchemaEnums.Proofs.Enums.Contents
import SchemaEnums.Proofs.Enums.Identifiers
import SchemaEnums.Proofs.Enums.Selection
import SchemaEnums.Proofs.Naming.Case

/-!
# Enums — Accessors

The enum of the client's names beside that of the models' names.  Both have a member for each model,
in one order, and a model's two members have the same identifier unless its name has a zero behind a
hyphen (`accessors_identified_iff`).
-/

namespace SchemaEnums.Enums
open Schema

/-- What stands in a file under a name was declared by the category of that name. -/
theorem EnumFile.mem_declarationsOf {names : Names} {selected : List Category} {f : EnumFile}
    {d : Declaration} (h : EnumFile.build names selected = .ok f) (hd : d ∈ f.declarations) :
    d ∈ names.declarationsOf d.category := by
  obtain ⟨-, rfl⟩ := (EnumFile.build_settles names selected).eq_ok_iff.mp h
  obtain ⟨c, -, hc⟩ := Category.mem_collect.mp hd
  rwa [Names.category_of_mem_declarationsOf hc]

/-- Every model of a schema has a name of the grammar. -/
theorem isName_model_of_read {text : String} {s : Summary} (h : Summary.read text = .ok s)
    {m : ModelSummary} (hm : m ∈ s.models) : IsName m.name.toList := by
  obtain ⟨d, hd, rfl⟩ := map_eq_ok_iff.mp h
  rw [d.summary_models] at hm
  obtain ⟨b, hb, rfl⟩ := List.mem_map.mp hm
  obtain ⟨block, hblock, hmodel⟩ := List.mem_filterMap.mp hb
  have hwf := Document.wellFormed_of_parse (Document.read_eq_ok_iff.mp hd).1 block hblock
  cases block with
  | model b' =>
      obtain ⟨-, rfl⟩ : b'.kind = .model ∧ b' = b := by simpa using hmodel
      exact hwf.1
  | enum b' => cases hmodel
  | config b' => cases hmodel

/-- **How the client's names are identified.**  The Pascal case of a name is that of its camel case,
exactly if no zero stands behind a hyphen in it.  So the members that stand for one model in the
client's enum and in the models' have the same identifier exactly then. -/
theorem accessors_identified_iff :
    (∀ n : String, IsName n.toList →
      (Naming.pascalize (Naming.camelize n) = Naming.pascalize n ↔
        ¬ ['-', '0'] <:+: n.toList)) ∧
    ∀ (text : String) (s : Summary) (selected : List Category) (f : EnumFile),
      Summary.read text = .ok s → EnumFile.build (Names.ofSummary s) selected = .ok f →
      ∀ accessors models : List Member, ⟨"PrismaModel", accessors⟩ ∈ f.declarations →
        ⟨"ModelName", models⟩ ∈ f.declarations →
        accessors.length = s.models.length ∧ models.length = s.models.length ∧
        ∀ (i : Nat) (m : ModelSummary) (a b : Member), s.models[i]? = some m →
          accessors[i]? = some a → models[i]? = some b →
          (a.identifier = b.identifier ↔ ¬ ['-', '0'] <:+: m.name.toList) := by
  refine ⟨fun n hn => Naming.pascalize_camelize_eq_iff hn, ?_⟩
  intro text s selected f hs hf accessors models haccessors hmodels
  obtain ⟨-, rfl⟩ := Declaration.mk.inj
    (List.mem_singleton.mp (EnumFile.mem_declarationsOf hf haccessors))
  obtain ⟨-, rfl⟩ := Declaration.mk.inj
    (List.mem_singleton.mp (EnumFile.mem_declarationsOf hf hmodels))
  refine ⟨by simp [membersOf, Names.ofSummary], by simp [membersOf, Names.ofSummary], ?_⟩
  intro i m a b hm ha hb
  simp only [membersOf, Names.ofSummary, List.getElem?_map, hm, Option.map_some,
    Option.some.injEq] at ha hb
  rw [← ha, ← hb]
  exact Naming.pascalize_camelize_eq_iff (isName_model_of_read hs (List.mem_of_getElem? hm))

/-- Two models, of which the client's spelling of one has lost a zero. -/
def lostZeroText : String := "model user_Name {}
model line-0a {}"

/-- What `lostZeroText` says. -/
def lostZeroSummary : Summary := ⟨[⟨"user_Name", none⟩, ⟨"line-0a", none⟩], []⟩

/-- The client's names of `lostZeroText`, and those of its models. -/
def lostZeroFile : EnumFile :=
  ⟨[⟨"PrismaModel", [⟨"UserName", "user_Name"⟩, ⟨"LineA", "line-a"⟩]⟩,
    ⟨"ModelName", [⟨"UserName", "user_Name"⟩, ⟨"Line0a", "line-0a"⟩]⟩]⟩

theorem accessors_identified_lost_zero :
    Summary.read lostZeroText = .ok lostZeroSummary ∧
      EnumFile.build (Names.ofSummary lostZeroSummary) [.modelName, .prismaModel] =
        .ok lostZeroFile ∧
      ¬ ['-', '0'] <:+: "user_Name".toList ∧
      ['-', '0'] <:+: "line-0a".toList ∧
      (Naming.pascalize (Naming.camelize "__a-b0") = Naming.pascalize "__a-b0" ↔
        ¬ ['-', '0'] <:+: "__a-b0".toList) := by
  have hread : Summary.read lostZeroText = .ok lostZeroSummary := by decide +kernel
  have hbuild : EnumFile.build (Names.ofSummary lostZeroSummary) [.modelName, .prismaModel] =
      .ok lostZeroFile := by decide +kernel
  obtain ⟨hname, hfile⟩ := accessors_identified_iff
  obtain ⟨-, -, hmembers⟩ := hfile lostZeroText lostZeroSummary [.modelName, .prismaModel]
    lostZeroFile hread hbuild [⟨"UserName", "user_Name"⟩, ⟨"LineA", "line-a"⟩]
    [⟨"UserName", "user_Name"⟩, ⟨"Line0a", "line-0a"⟩] (by decide) (by decide)
  exact ⟨hread, hbuild, (hmembers 0 _ _ _ rfl rfl rfl).mp rfl,
    not_not.mp fun h => absurd ((hmembers 1 _ _ _ rfl rfl rfl).mpr h) (by decide),
    hname "__a-b0" (by decide)⟩

end SchemaEnums.Enums
