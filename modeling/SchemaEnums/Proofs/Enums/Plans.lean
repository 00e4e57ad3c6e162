import SchemaEnums.Proofs.Enums.Requests

/-!
# Enums — Plans

What a file of all categories is made of, and what it fails with.

Such a file has a fixed list of declarations (`Names.plans`), each with the values it is made for.
The file is made exactly if every one of them can be, and otherwise the first one that cannot be
fails it (`declarations_decided`).

The tables' enum is planned for the models' names where no model is mapped to a table.  The build
does not make it a second time then, it takes over the members of the models' enum; that comes to
the same, for the models' enum stands before it (`Names.firstClash_plans`).
-/

namespace SchemaEnums.Enums

variable {names : Names} {clash : Clash}

/-- A declaration to be made. -/
structure Plan where
  name       : String
  identifier : String → String
  values     : List String

/-- The plan with its outcome. -/
def Plan.request (p : Plan) : Request := (p.name, Declaration.make p.name p.identifier p.values)

/-- The declaration that is made, if nothing is in the way. -/
def Plan.declaration (p : Plan) : Declaration := ⟨p.name, membersOf p.identifier p.values⟩

/-- The declarations of a file of all categories, in their order. -/
def Names.plans (names : Names) : List Plan :=
  ⟨"PrismaModel", Naming.pascalize, names.accessors⟩ ::
  ⟨"ModelName", Naming.pascalize, names.models⟩ ::
  ⟨"TableName", Naming.pascalize, if names.tables.isEmpty then names.models else names.tables⟩ ::
  names.enums.map fun e => ⟨e.1 ++ "Enum", Naming.memberName, e.2⟩

/-! ### Outcomes of plans -/

theorem Plan.clash?_eq_some_iff {p : Plan} :
    p.request.clash? = some clash ↔ Blamed p.name p.identifier p.values clash :=
  Request.clash?_eq_some_iff.trans Declaration.make_eq_error_iff

theorem Plan.clash?_eq_none_iff {p : Plan} :
    p.request.clash? = none ↔ Declarable p.identifier p.values := by
  rcases declarable_or_blamed p.name p.identifier p.values with h | ⟨clash, h⟩
  · exact iff_of_true (by rw [Plan.request, Request.clash?, h.make]) h
  · rw [Plan.clash?_eq_some_iff.mpr h]
    refine iff_of_false (Option.some_ne_none clash) fun hvalues => ?_
    have hmake := h.make
    rw [hvalues.make] at hmake
    cases hmake

/-- The first plan that cannot be carried out is the one that fails them all. -/
theorem firstClash_plans_eq_some_iff {plans : List Plan} :
    firstClash (plans.map Plan.request) = some clash ↔
      ∃ before p after, plans = before ++ p :: after ∧
        (∀ q ∈ before, Declarable q.identifier q.values) ∧
        Blamed p.name p.identifier p.values clash := by
  simp only [firstClash, List.findSome?_map, List.findSome?_eq_some_iff, Function.comp_apply,
    Plan.clash?_eq_some_iff, Plan.clash?_eq_none_iff]
  constructor
  · rintro ⟨before, p, after, hplans, hclash, hbefore⟩
    exact ⟨before, p, after, hplans, hbefore, hclash⟩
  · rintro ⟨before, p, after, hplans, hbefore, hclash⟩
    exact ⟨before, p, after, hplans, hclash, hbefore⟩

theorem firstClash_plans_eq_none_iff {plans : List Plan} :
    firstClash (plans.map Plan.request) = none ↔
      ∀ p ∈ plans, Declarable p.identifier p.values := by
  simp only [firstClash, List.findSome?_map, List.findSome?_eq_none_iff, Function.comp_apply,
    Plan.clash?_eq_none_iff]

/-! ### The file of all categories -/

theorem Names.declarations_all (names : Names) :
    names.declarations Category.all = names.plans.map Plan.declaration := by
  rw [declarations, Category.collect_eq]
  simp [Category.mem_all, declarationsOf, plans, Plan.declaration]

/-- Planning the tables' enum for the models' names changes nothing, because the models' enum has
failed before it fails. -/
theorem Names.firstClash_plans (names : Names) :
    firstClash (names.plans.map Plan.request) =
      firstClash (names.requests (.modelName :: Category.all)) := by
  have hneeds : ∀ c, names.Needs (.modelName :: Category.all) c := fun c =>
    .inl (List.mem_cons_of_mem _ c.mem_all)
  have hrequests : names.requests (.modelName :: Category.all) =
      names.requestsOf .prismaModel ++ (names.requestsOf .modelName ++
        (names.requestsOf .tableName ++ names.requestsOf .enums)) := by
    simp only [requests, Category.collect_eq, hneeds, if_true, List.append_nil]
  by_cases htables : names.tables = []
  · have hplans : names.plans.map Plan.request =
        names.requestsOf .prismaModel ++ (names.requestsOf .modelName ++
          ([Plan.request ⟨"TableName", Naming.pascalize, names.models⟩] ++
            names.requestsOf .enums)) := by
      simp [plans, requestsOf, htables, Plan.request, declareEnum]
    rw [hplans, hrequests, requestsOf.eq_3, if_pos htables]
    simp only [firstClash_append]
    -- the tables' enum is planned for the models' names, as the models' enum is
    cases hmodels : firstClash (names.requestsOf .modelName) with
    | some clash => rfl
    | none =>
        have hdeclarable : Declarable Naming.pascalize names.models :=
          Plan.clash?_eq_none_iff (p := ⟨"ModelName", _, _⟩).mp
            (List.findSome?_singleton.symm.trans hmodels)
        have htableName : firstClash [Plan.request ⟨"TableName", Naming.pascalize, names.models⟩] =
            none := firstClash_plans_eq_none_iff.mpr (List.forall_mem_singleton.mpr hdeclarable)
        rw [htableName]
        rfl
  · have hplans : names.plans.map Plan.request =
        names.requestsOf .prismaModel ++ (names.requestsOf .modelName ++
          (names.requestsOf .tableName ++ names.requestsOf .enums)) := by
      simp [plans, requestsOf, htables, Plan.request, declareEnum]
    rw [hplans, hrequests]

/-- **When enums are declared, and which problem is reported.**  A declaration is made exactly if
all its values are called by identifiers, no two by the same, and then it has them all in their
order; otherwise the first value for which that fails is blamed.  A file of all categories is made
exactly if all its declarations are, and otherwise it fails as the first one that is not made. -/
theorem declarations_decided :
    (∀ (name : String) (identifier : String → String) (values : List String),
      (∀ d, Declaration.make name identifier values = .ok d ↔
        Declarable identifier values ∧ d = ⟨name, membersOf identifier values⟩) ∧
      ∀ clash, Declaration.make name identifier values = .error clash ↔
        Blamed name identifier values clash) ∧
    ∀ names : Names,
      (∀ f, EnumFile.build names Category.all = .ok f ↔
        (∀ p ∈ names.plans, Declarable p.identifier p.values) ∧
          f = ⟨names.plans.map Plan.declaration⟩) ∧
      ∀ clash, EnumFile.build names Category.all = .error clash ↔
        ∃ before p after, names.plans = before ++ p :: after ∧
          (∀ q ∈ before, Declarable q.identifier q.values) ∧
          Blamed p.name p.identifier p.values clash := by
  refine ⟨fun name identifier values =>
    ⟨fun d => Declaration.make_eq_ok_iff, fun clash => Declaration.make_eq_error_iff⟩,
    fun names => ⟨fun f => ?_, fun clash => ?_⟩⟩
  · rw [(EnumFile.build_settles names Category.all).eq_ok_iff, ← names.firstClash_plans,
      firstClash_plans_eq_none_iff, names.declarations_all, eq_comm (a := f)]
  · rw [(EnumFile.build_settles names Category.all).eq_error_iff, ← names.firstClash_plans,
      firstClash_plans_eq_some_iff]

end SchemaEnums.Enums
