import SchemaEnums.Proofs.Enums.Distinct
import SchemaEnums.Proofs.Naming.Recovery

/-!
# Enums — Collisions

When two values of an enum become the same member: for plain values, exactly when they have the same
words but for the case (`members_collide_iff`).

Plain values always have identifiers, so a list of them can only be refused because of one that is
called as an earlier one (`declareEnum_clash`).  The clashes of the enums come last in a build,
behind those of everything else it asks for (`firstClash_requests_enums`).
-/

namespace SchemaEnums.Enums
open Naming

variable {names : Names} {selected : List Category} {clash : Clash}

/-! ### Declarations -/

/-- Two of the values, one behind the other, have the same words but for the case. -/
def SharesWords (values : List String) : Prop :=
  ∃ first second, [first, second].Sublist values ∧
    foldedWords first.toList = foldedWords second.toList

section Enum

variable {e : String × List String}

/-- An enum of plain values clashes for two of them with the same words. -/
theorem declareEnum_clash (h : ∀ v ∈ e.2, IsPlain v.toList)
    (hclash : declareEnum e = .error clash) : ∃ first second, [first, second].Sublist e.2 ∧
      foldedWords first.toList = foldedWords second.toList ∧
      clash = .duplicate (e.1 ++ "Enum") (memberName second) first second := by
  have hvalid : ∀ v ∈ e.2, isIdentifier (memberName v) = true :=
    fun v hv => isIdentifier_memberName (h v hv)
  cases Declaration.make_eq_error_iff.mp hclash with
  | invalid hsplit _ hinvalid =>
      rw [hvalid _ (by simp [hsplit])] at hinvalid
      cases hinvalid
  | @duplicate before first second after hsplit _ hearlier hsame =>
      have hsublist : [first, second].Sublist e.2 := hsplit ▸
        (List.singleton_sublist.mpr hearlier).append
          (List.singleton_sublist.mpr List.mem_cons_self)
      have hplain : ∀ v ∈ [first, second], IsPlain v.toList := fun v hv => h v (hsublist.subset hv)
      exact ⟨first, second, hsublist,
        (memberName_eq_iff (hplain first (by simp)) (hplain second (by simp))).mp hsame, rfl⟩

/-- Values with the same words cannot both be declared. -/
theorem declareEnum_eq_error_iff (h : ∀ v ∈ e.2, IsPlain v.toList) :
    (∃ clash, declareEnum e = .error clash) ↔ SharesWords e.2 := by
  constructor
  · rintro ⟨clash, hclash⟩
    obtain ⟨first, second, hsublist, hsame, -⟩ := declareEnum_clash h hclash
    exact ⟨first, second, hsublist, hsame⟩
  · rintro ⟨first, second, hsublist, hsame⟩
    have hplain : ∀ v ∈ [first, second], IsPlain v.toList := fun v hv => h v (hsublist.subset hv)
    have hmember : memberName first = memberName second :=
      (memberName_eq_iff (hplain first (by simp)) (hplain second (by simp))).mpr hsame
    cases hmake : declareEnum e with
    | error clash => exact ⟨clash, rfl⟩
    | ok d =>
        have hdistinct := (Declaration.make_eq_ok_iff.mp hmake).1.distinct
        rw [List.Nodup, List.pairwise_map] at hdistinct
        exact absurd hmember (List.pairwise_iff_forall_sublist.mp hdistinct hsublist)

theorem declareEnum_duplicate_iff (h : ∀ v ∈ e.2, IsPlain v.toList) :
    (∃ identifier first second,
      declareEnum e = .error (.duplicate (e.1 ++ "Enum") identifier first second)) ↔
      SharesWords e.2 := by
  rw [← declareEnum_eq_error_iff h]
  refine ⟨fun ⟨_, _, _, hclash⟩ => ⟨_, hclash⟩, fun ⟨clash, hclash⟩ => ?_⟩
  obtain ⟨first, second, -, -, rfl⟩ := declareEnum_clash h hclash
  exact ⟨_, first, second, hclash⟩

end Enum

/-! ### The file -/

/-- The enums' clashes count where nothing else of the file clashes. -/
theorem firstClash_requests_enums (names : Names) (h : .enums ∈ selected) :
    firstClash (names.requests (.modelName :: selected)) =
      (firstClash (Names.requests { names with enums := [] } (.modelName :: selected))).or
        (firstClash (names.requestsOf .enums)) := by
  have hrest : Names.requests { names with enums := [] } (.modelName :: selected) =
      (if .prismaModel ∈ selected then names.requestsOf .prismaModel else []) ++
      (names.requestsOf .modelName ++
      (if .tableName ∈ selected then names.requestsOf .tableName else [])) := by
    simp [Names.requests, Category.collect_eq, Names.Needs, Names.requestsOf]
  have hall : names.requests (.modelName :: selected) =
      Names.requests { names with enums := [] } (.modelName :: selected) ++
        names.requestsOf .enums := by
    rw [hrest]
    simp [Names.requests, Category.collect_eq, Names.Needs, h]
  rw [hall, firstClash_append]

theorem Names.enum_of_firstClash (h : firstClash (names.requestsOf .enums) = some clash) :
    ∃ e ∈ names.enums, declareEnum e = .error clash := by
  obtain ⟨_, hmem⟩ := exists_of_firstClash h
  obtain ⟨e, he, hrequest⟩ := List.mem_map.mp hmem
  exact ⟨e, he, (Prod.mk.inj hrequest).2⟩

theorem Names.firstClash_enums_iff (hplain : ∀ e ∈ names.enums, ∀ v ∈ e.2, IsPlain v.toList) :
    (∃ clash, firstClash (names.requestsOf .enums) = some clash) ↔
      ∃ e ∈ names.enums, SharesWords e.2 := by
  constructor
  · rintro ⟨clash, h⟩
    obtain ⟨e, he, herror⟩ := enum_of_firstClash h
    exact ⟨e, he, (declareEnum_eq_error_iff (hplain e he)).mp ⟨clash, herror⟩⟩
  · rintro ⟨e, he, hshares⟩
    obtain ⟨clash, herror⟩ := (declareEnum_eq_error_iff (hplain e he)).mpr hshares
    cases h : firstClash (names.requestsOf .enums) with
    | none => exact absurd herror (firstClash_eq_none_iff.mp h _ (List.mem_map_of_mem he) clash)
    | some clash' => exact ⟨clash', rfl⟩

/-- **When values collide.**  Two plain values become the same member exactly if they have the same
words but for the case.  So an enum of plain values has a duplicate exactly if two of its values
have, and a file, whose other parts can be made, exactly if one of its enums has; the failure names
two such values, and the enum. -/
theorem members_collide_iff :
    (∀ m n : String, IsPlain m.toList → IsPlain n.toList →
      (memberName m = memberName n ↔ foldedWords m.toList = foldedWords n.toList)) ∧
    (∀ e : String × List String, (∀ v ∈ e.2, IsPlain v.toList) →
      ((∃ identifier first second,
        declareEnum e = .error (.duplicate (e.1 ++ "Enum") identifier first second)) ↔
          SharesWords e.2)) ∧
    ∀ (names : Names) (selected : List Category), .enums ∈ selected →
      (∀ e ∈ names.enums, ∀ v ∈ e.2, IsPlain v.toList) →
      (∀ clash, EnumFile.build { names with enums := [] } selected = .error clash →
        EnumFile.build names selected = .error clash) ∧
      ∀ f, EnumFile.build { names with enums := [] } selected = .ok f →
        ((∃ declaration identifier first second, EnumFile.build names selected =
            .error (.duplicate declaration identifier first second)) ↔
          ∃ e ∈ names.enums, SharesWords e.2) ∧
        ∀ clash, EnumFile.build names selected = .error clash →
          ∃ e ∈ names.enums, ∃ first second, [first, second].Sublist e.2 ∧
            foldedWords first.toList = foldedWords second.toList ∧
            clash = .duplicate (e.1 ++ "Enum") (memberName second) first second := by
  refine ⟨fun m n hm hn => memberName_eq_iff hm hn, fun e he => declareEnum_duplicate_iff he,
    fun names selected hselected hplain => ?_⟩
  -- a file cannot be made exactly if one of its requests clashes, and the enums' requests come last
  have hbuild : ∀ clash, EnumFile.build names selected = .error clash ↔
      firstClash (names.requests (.modelName :: selected)) = some clash :=
    fun _ => (EnumFile.build_settles names selected).eq_error_iff
  simp only [hbuild, firstClash_requests_enums names hselected]
  refine ⟨fun clash hclash => ?_, fun f hf => ?_⟩
  · rw [(EnumFile.build_settles _ selected).eq_error_iff.mp hclash]
    rfl
  · rw [((EnumFile.build_settles _ selected).eq_ok_iff.mp hf).1, Option.none_or,
      ← Names.firstClash_enums_iff hplain]
    have hduplicate : ∀ clash, firstClash (names.requestsOf .enums) = some clash →
        ∃ e ∈ names.enums, ∃ first second, [first, second].Sublist e.2 ∧
          foldedWords first.toList = foldedWords second.toList ∧
          clash = .duplicate (e.1 ++ "Enum") (memberName second) first second := by
      intro clash h
      obtain ⟨e, he, herror⟩ := Names.enum_of_firstClash h
      exact ⟨e, he, declareEnum_clash (hplain e he) herror⟩
    refine ⟨⟨fun ⟨_, _, _, _, h⟩ => ⟨_, h⟩, fun ⟨clash, h⟩ => ?_⟩, hduplicate⟩
    obtain ⟨_, _, _, _, -, -, rfl⟩ := hduplicate clash h
    exact ⟨_, _, _, _, h⟩

/-- The names of a schema with one enum, whose first and last values have the same words. -/
def progressNames : Names :=
  ⟨["Task"], [], ["task"], [("State", ["in_PROGRESS", "On-Hold2", "_In--progress"])]⟩

theorem members_collide_progress :
    (∀ e ∈ progressNames.enums, ∀ v ∈ e.2, IsPlain v.toList) ∧
    EnumFile.build { progressNames with enums := [] } [.enums, .modelName] =
      .ok ⟨[⟨"ModelName", [⟨"Task", "Task"⟩]⟩]⟩ ∧
    memberName "in_PROGRESS" = memberName "_In--progress" ∧
    ∃ declaration identifier first second,
      EnumFile.build progressNames [.enums, .modelName] =
        .error (.duplicate declaration identifier first second) := by
  have hplain : ∀ e ∈ progressNames.enums, ∀ v ∈ e.2, IsPlain v.toList := by decide +kernel
  have hrest : EnumFile.build { progressNames with enums := [] } [.enums, .modelName] =
      .ok ⟨[⟨"ModelName", [⟨"Task", "Task"⟩]⟩]⟩ := by decide +kernel
  have hsame : foldedWords "in_PROGRESS".toList = foldedWords "_In--progress".toList := by
    decide +kernel
  have hshares : SharesWords ["in_PROGRESS", "On-Hold2", "_In--progress"] :=
    ⟨"in_PROGRESS", "_In--progress", by decide, hsame⟩
  obtain ⟨hnames, -, hfile⟩ := members_collide_iff
  obtain ⟨-, hbuild⟩ := hfile progressNames [.enums, .modelName] (by decide) hplain
  exact ⟨hplain, hrest, (hnames _ _ (by decide +kernel) (by decide +kernel)).mpr hsame,
    (hbuild _ hrest).1.mpr ⟨_, List.mem_singleton_self _, hshares⟩⟩

end SchemaEnums.Enums
