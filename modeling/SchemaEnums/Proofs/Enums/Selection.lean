import Mathlib.Data.List.Basic
import SchemaEnums.Proofs.Enums.Requests

/-!
# Enums — Selection

What the selection of categories does to a generated file.

A file of all categories holds those of any selection, so a selection picks its declarations out of
it (`selection_picks`).  What is not selected can still stand in the way in one case: the models'
names are declared whatever is selected, so they fail a file that makes nothing of them
(`unselected_models_clash`).  Wherever they do not, a build is blamed on what the selection asks for
and depends on nothing else (`blamed_on_requests_iff`).
-/

namespace SchemaEnums.Enums

variable {names names' : Names} {selected : List Category} {clash : Clash}

/-! ### Categories of names -/

/-- The category that declares an enum under a name. -/
def Category.declaring (name : String) : Category :=
  if name = "PrismaModel" then .prismaModel
  else if name = "ModelName" then .modelName
  else if name = "TableName" then .tableName
  else .enums

/-- The category that a declaration belongs to, told by its name. -/
def Declaration.category (d : Declaration) : Category := .declaring d.name

/-- A name that does not end like those of a schema's enums is none of them. -/
theorem enum_name_ne {n fixed : String} (h : ¬ "Enum".toList <:+ fixed.toList) :
    n ++ "Enum" ≠ fixed := by
  rintro rfl
  exact h ⟨n.toList, String.toList_append.symm⟩

theorem Category.declaring_enum (n : String) : Category.declaring (n ++ "Enum") = .enums := by
  rw [declaring, if_neg (enum_name_ne (by decide)), if_neg (enum_name_ne (by decide)),
    if_neg (enum_name_ne (by decide))]

theorem Names.declaring_of_mem_requestsOf {c : Category} {r : Request}
    (h : r ∈ names.requestsOf c) : Category.declaring r.1 = c := by
  cases c with
  | prismaModel => rw [List.mem_singleton.mp h]; rfl
  | modelName => rw [List.mem_singleton.mp h]; rfl
  | tableName => rw [(mem_requestsOf_tableName.mp h).2]; rfl
  | enums =>
      obtain ⟨e, -, rfl⟩ := List.mem_map.mp h
      exact Category.declaring_enum e.1

theorem Names.category_of_mem_declarationsOf {c : Category} {d : Declaration}
    (h : d ∈ names.declarationsOf c) : d.category = c := by
  cases c with
  | prismaModel => rw [List.mem_singleton.mp h]; rfl
  | modelName => rw [List.mem_singleton.mp h]; rfl
  | tableName => rw [List.mem_singleton.mp h]; rfl
  | enums =>
      obtain ⟨e, -, rfl⟩ := List.mem_map.mp h
      exact Category.declaring_enum e.1

/-! ### What a selection picks -/

section Collect

variable {α : Type} {p q : Category → Prop} [DecidablePred p] [DecidablePred q]
  {give give' : Category → List α}

theorem Category.collect_congr (hpq : ∀ c, p c ↔ q c) (hgive : ∀ c, p c → give c = give' c) :
    Category.collect p give = Category.collect q give' := by
  refine congrArg Category.all.flatMap (funext fun c => ?_)
  by_cases hc : p c
  · rw [if_pos hc, if_pos ((hpq c).mp hc), hgive c hc]
  · rw [if_neg hc, if_neg fun h => hc ((hpq c).mpr h)]

/-- Where what is given tells its category, a collection can be cut down afterwards. -/
theorem Category.filter_collect {category : α → Category}
    (h : ∀ c, ∀ x ∈ give c, category x = c) :
    (Category.collect p give).filter (fun x => q (category x)) =
      Category.collect (fun c => p c ∧ q c) give := by
  rw [collect, collect, List.filter_flatMap]
  refine congrArg Category.all.flatMap (funext fun c => ?_)
  by_cases hp : p c
  · rw [if_pos hp]
    by_cases hq : q c
    · rw [if_pos ⟨hp, hq⟩, List.filter_eq_self]
      exact fun x hx => by simpa [h c x hx] using hq
    · rw [if_neg fun h => hq h.2, List.filter_eq_nil_iff]
      exact fun x hx => by simpa [h c x hx] using hq
  · rw [if_neg hp, if_neg fun h => hp h.1, List.filter_nil]

end Collect

/-- What a selection declares is picked out of what all categories declare. -/
theorem Names.declarations_eq_filter (names : Names) (selected : List Category) :
    names.declarations selected =
      (names.declarations Category.all).filter (·.category ∈ selected) := by
  rw [declarations, declarations,
    Category.filter_collect (fun _ _ => category_of_mem_declarationsOf)]
  exact Category.collect_congr (fun c => by simp [c.mem_all]) fun _ _ => rfl

/-- The categories of a full file, declaration by declaration. -/
theorem Names.map_category_declarations (names : Names) :
    (names.declarations Category.all).map (·.category) =
      [.prismaModel, .modelName, .tableName] ++ List.replicate names.enums.length .enums := by
  have henums : (names.declarationsOf .enums).map (·.category) =
      List.replicate names.enums.length .enums := by
    rw [List.eq_replicate_iff]
    refine ⟨by simp [declarationsOf], fun c hc => ?_⟩
    obtain ⟨d, hd, rfl⟩ := List.mem_map.mp hc
    exact category_of_mem_declarationsOf hd
  rw [← henums, declarations, Category.collect_eq]
  simp [Category.mem_all, declarationsOf, Declaration.category, Category.declaring]

/-- A file of all categories has made whatever a selection asks for. -/
theorem EnumFile.build_selected {f : EnumFile} (h : EnumFile.build names Category.all = .ok f)
    (selected : List Category) :
    EnumFile.build names selected = .ok ⟨f.declarations.filter (·.category ∈ selected)⟩ := by
  obtain ⟨hnone, rfl⟩ := (EnumFile.build_settles names Category.all).eq_ok_iff.mp h
  refine (EnumFile.build_settles names selected).eq_ok_iff.mpr ⟨?_, ?_⟩
  · rw [firstClash_eq_none_iff] at hnone ⊢
    intro r hr
    obtain ⟨c, -, hc⟩ := Category.mem_collect.mp hr
    exact hnone r (Category.mem_collect.mpr ⟨c, .inl (List.mem_cons_of_mem _ c.mem_all), hc⟩)
  · rw [names.declarations_eq_filter selected]

/-! ### What a selection reads -/

/-- The names agree in all that the selected categories read. -/
structure Names.AgreeOn (selected : List Category) (names names' : Names) : Prop where
  accessors : .prismaModel ∈ selected → names.accessors = names'.accessors
  models    : names.Needs selected .modelName → names.models = names'.models
  tables    : .tableName ∈ selected → names.tables = names'.tables
  enums     : .enums ∈ selected → names.enums = names'.enums

theorem Names.AgreeOn.needs_iff (h : names.AgreeOn selected names') (c : Category) :
    names.Needs selected c ↔ names'.Needs selected c := by
  refine or_congr_right (and_congr_right fun _ => and_congr_right fun htables => ?_)
  rw [h.tables htables]

theorem Names.AgreeOn.requests_eq (h : names.AgreeOn selected names') :
    names.requests selected = names'.requests selected := by
  refine Category.collect_congr h.needs_iff fun c hc => ?_
  cases c with
  | prismaModel => rw [requestsOf, requestsOf, h.accessors (hc.resolve_right (by simp))]
  | modelName => rw [requestsOf, requestsOf, h.models hc]
  | tableName => rw [requestsOf, requestsOf, h.tables (hc.resolve_right (by simp))]
  | enums => rw [requestsOf, requestsOf, h.enums (hc.resolve_right (by simp))]

theorem Names.AgreeOn.declarations_eq (h : names.AgreeOn selected names') :
    names.declarations selected = names'.declarations selected := by
  refine Category.collect_congr (fun _ => Iff.rfl) fun c hc => ?_
  cases c with
  | prismaModel => rw [declarationsOf, declarationsOf, h.accessors hc]
  | modelName => rw [declarationsOf, declarationsOf, h.models (.inl hc)]
  | tableName =>
      rw [declarationsOf, declarationsOf, ← h.tables hc]
      by_cases htables : names.tables = []
      · rw [h.models (.inr ⟨rfl, hc, htables⟩)]
      · rw [if_neg (by simpa using htables), if_neg (by simpa using htables)]
  | enums => rw [declarationsOf, declarationsOf, h.enums hc]

/-- The order in which categories are selected and how often does not matter. -/
theorem EnumFile.build_congr {selected' : List Category} (h : ∀ c, c ∈ selected ↔ c ∈ selected') :
    EnumFile.build names selected = EnumFile.build names selected' := by
  have hrequests : names.requests (.modelName :: selected) =
      names.requests (.modelName :: selected') :=
    Category.collect_congr (fun c => by simp only [Names.Needs, List.mem_cons, h]) fun _ _ => rfl
  have hdeclarations : names.declarations selected = names.declarations selected' :=
    Category.collect_congr h fun _ _ => rfl
  rw [EnumFile.build_settles names selected, EnumFile.build_settles names selected', hrequests,
    hdeclarations]

/-- **A selection picks declarations.**  If the file of all categories can be made, so can that of
any selection, and it holds the declarations of the selected categories in their order.  Of a list
of categories nothing counts but which of them it has. -/
theorem selection_picks (names : Names) :
    (∀ f, EnumFile.build names Category.all = .ok f →
      f.declarations.map (·.category) =
        [.prismaModel, .modelName, .tableName] ++ List.replicate names.enums.length .enums ∧
      ∀ selected, EnumFile.build names selected =
        .ok ⟨f.declarations.filter (·.category ∈ selected)⟩) ∧
    ∀ selected selected', (∀ c, c ∈ selected ↔ c ∈ selected') →
      EnumFile.build names selected = EnumFile.build names selected' := by
  refine ⟨fun f hf => ⟨?_, EnumFile.build_selected hf⟩, fun _ _ => EnumFile.build_congr⟩
  obtain ⟨-, rfl⟩ := (EnumFile.build_settles names Category.all).eq_ok_iff.mp hf
  exact names.map_category_declarations

theorem selection_picks_tables :
    EnumFile.build ⟨["User"], [], ["user"], [("Role", ["ADMIN"])]⟩ Category.all =
      .ok ⟨[⟨"PrismaModel", [⟨"User", "user"⟩]⟩, ⟨"ModelName", [⟨"User", "User"⟩]⟩,
        ⟨"TableName", [⟨"User", "User"⟩]⟩, ⟨"RoleEnum", [⟨"Admin", "ADMIN"⟩]⟩]⟩ ∧
    EnumFile.build ⟨["User"], [], ["user"], [("Role", ["ADMIN"])]⟩ [.enums, .tableName, .enums] =
      .ok ⟨[⟨"TableName", [⟨"User", "User"⟩]⟩, ⟨"RoleEnum", [⟨"Admin", "ADMIN"⟩]⟩]⟩ ∧
    EnumFile.build ⟨["User"], [], ["user"], [("Role", ["ADMIN"])]⟩ [.enums, .tableName, .enums] =
      EnumFile.build ⟨["User"], [], ["user"], [("Role", ["ADMIN"])]⟩ [.tableName, .enums] := by
  obtain ⟨hfile, hset⟩ := selection_picks ⟨["User"], [], ["user"], [("Role", ["ADMIN"])]⟩
  exact ⟨rfl, (hfile _ rfl).2 _, hset _ _ fun c => by cases c <;> decide⟩

/-! ### Models that stand in the way -/

/-- The models' names are asked for, or can be declared, or something else fails first. -/
inductive Names.ModelsHarmless (names : Names) (selected : List Category) : Prop where
  | needed (h : names.Needs selected .modelName)
  | declared {d : Declaration}
      (h : Declaration.make "ModelName" Naming.pascalize names.models = .ok d)
  | late {clash : Clash} (hselected : .prismaModel ∈ selected)
      (h : Declaration.make "PrismaModel" Naming.pascalize names.accessors = .error clash)

/-- The first clash in a collection is that of the first category which has one. -/
theorem firstClash_collect {p : Category → Prop} [DecidablePred p]
    {give : Category → List Request} : firstClash (Category.collect p give) =
      Category.all.findSome? fun c => if p c then firstClash (give c) else none := by
  have hflatMap : ∀ cs : List Category,
      firstClash (cs.flatMap fun c => if p c then give c else []) =
        cs.findSome? fun c => if p c then firstClash (give c) else none := by
    intro cs
    induction cs with
    | nil => rfl
    | cons c cs ih =>
        rw [List.flatMap_cons, firstClash_append, ih, List.findSome?_cons, apply_ite firstClash]
        show (if p c then firstClash (give c) else none).or _ = _
        cases (if p c then firstClash (give c) else none) <;> rfl
  exact hflatMap Category.all

theorem firstClash_make {name : String} {identifier : String → String} {values : List String}
    (h : Declaration.make name identifier values = .error clash) :
    firstClash [(name, Declaration.make name identifier values)] = some clash := by
  rw [h]
  rfl

theorem Names.needs_cons_modelName (c : Category) :
    names.Needs (.modelName :: selected) c ↔ c = .modelName ∨ names.Needs selected c := by
  rw [Needs, Needs, List.mem_cons, List.mem_cons, or_assoc]
  simp only [reduceCtorEq, false_or]

/-- Models that do no harm could as well not be declared. -/
theorem Names.ModelsHarmless.firstClash_eq (h : names.ModelsHarmless selected) :
    firstClash (names.requests (.modelName :: selected)) =
      firstClash (names.requests selected) := by
  simp only [requests, firstClash_collect, needs_cons_modelName]
  cases h with
  | needed h =>
      refine congrArg Category.all.findSome? (funext fun c => if_congr ?_ rfl rfl)
      exact or_iff_right_of_imp fun hc => hc ▸ h
  | declared h =>
      have hnone : firstClash (names.requestsOf .modelName) = none := by
        rw [requestsOf, firstClash_eq_none_iff]
        simp [h]
      refine congrArg Category.all.findSome? (funext fun c => ?_)
      by_cases hc : c = .modelName
      · rw [hc, hnone, ite_self, ite_self]
      · simp only [hc, false_or]
  | late hselected h =>
      have hfirst : firstClash (names.requestsOf .prismaModel) = some _ := firstClash_make h
      have hneeds : names.Needs selected .prismaModel := .inl hselected
      simp only [Category.all, List.findSome?_cons, hneeds, or_true, if_true, hfirst]

/-- Models that do harm fail the build under a name that nothing selected asks for. -/
theorem Names.harm_of_not_harmless (h : ¬ names.ModelsHarmless selected) :
    ∃ clash, EnumFile.build names selected = .error clash ∧
      clash.declaration ∉ (names.requests selected).map (·.1) := by
  cases hmodels : Declaration.make "ModelName" Naming.pascalize names.models with
  | ok d => exact absurd (.declared hmodels) h
  | error clash =>
      refine ⟨clash, (EnumFile.build_settles names selected).eq_error_iff.mpr ?_, ?_⟩
      · have hfirst : firstClash (names.requestsOf .modelName) = some clash :=
          firstClash_make hmodels
        have haccessors : (if names.Needs selected .prismaModel then
            firstClash (names.requestsOf .prismaModel) else none) = none := by
          split
          case isTrue hneeds =>
            cases hp : Declaration.make "PrismaModel" Naming.pascalize names.accessors with
            | ok d => rw [requestsOf, hp]; rfl
            | error clash' => exact absurd (.late (hneeds.resolve_right (by simp)) hp) h
          case isFalse => rfl
        rw [requests, firstClash_collect]
        simp [Category.all, needs_cons_modelName, haccessors, hfirst]
      · intro hmem
        obtain ⟨r, hr, hname⟩ := List.mem_map.mp hmem
        obtain ⟨c, hc, hrc⟩ := Category.mem_collect.mp hr
        have hcategory := declaring_of_mem_requestsOf hrc
        rw [hname, Declaration.make_clash hmodels] at hcategory
        cases hcategory
        exact h (.needed hc)

/-- **What a failure is blamed on.**  It is always blamed on a declaration that the selected
categories ask for, exactly if the models' names do no harm.  Where they do none the build depends
on what the selected categories read and on nothing else. -/
theorem blamed_on_requests_iff (names : Names) (selected : List Category) :
    ((∀ clash, EnumFile.build names selected = .error clash →
        (clash.declaration, .error clash) ∈ names.requests selected) ↔
      names.ModelsHarmless selected) ∧
    ∀ names', names.AgreeOn selected names' → names.ModelsHarmless selected →
      names'.ModelsHarmless selected →
      EnumFile.build names selected = EnumFile.build names' selected := by
  refine ⟨⟨fun hblamed => ?_, fun hharmless clash hclash => ?_⟩, fun names' hagree h h' => ?_⟩
  · by_contra hharm
    obtain ⟨clash, hclash, hnot⟩ := Names.harm_of_not_harmless hharm
    exact hnot (List.mem_map_of_mem (hblamed clash hclash))
  · rw [(EnumFile.build_settles names selected).eq_error_iff, hharmless.firstClash_eq] at hclash
    exact Names.mem_requests_of_firstClash hclash
  · rw [EnumFile.build_settles names selected, EnumFile.build_settles names' selected,
      h.firstClash_eq, h'.firstClash_eq, hagree.requests_eq, hagree.declarations_eq]

/-- The names of a schema with the enum `Role`, whose values become the same member. -/
def roleNames (models tables : List String) : Names :=
  ⟨models, tables, [], [("Role", ["ADMIN", "Admin"])]⟩

theorem blamed_on_requests_roles :
    EnumFile.build (roleNames ["User"] ["2fa"]) [.enums] =
      .error (.duplicate "RoleEnum" "Admin" "ADMIN" "Admin") ∧
    ("RoleEnum", .error (.duplicate "RoleEnum" "Admin" "ADMIN" "Admin")) ∈
      (roleNames ["User"] ["2fa"]).requests [.enums] ∧
    EnumFile.build (roleNames ["User"] ["2fa"]) [.enums] =
      EnumFile.build (roleNames ["Post"] []) [.enums] := by
  have hclash : EnumFile.build (roleNames ["User"] ["2fa"]) [.enums] =
      .error (.duplicate "RoleEnum" "Admin" "ADMIN" "Admin") := by decide +kernel
  have huser : (roleNames ["User"] ["2fa"]).ModelsHarmless [.enums] :=
    .declared (d := ⟨"ModelName", [⟨"User", "User"⟩]⟩) rfl
  have hpost : (roleNames ["Post"] []).ModelsHarmless [.enums] :=
    .declared (d := ⟨"ModelName", [⟨"Post", "Post"⟩]⟩) rfl
  have hagree : Names.AgreeOn [.enums] (roleNames ["User"] ["2fa"]) (roleNames ["Post"] []) :=
    ⟨by decide, by decide, by decide, fun _ => rfl⟩
  obtain ⟨hiff, hcongr⟩ := blamed_on_requests_iff (roleNames ["User"] ["2fa"]) [.enums]
  exact ⟨hclash, hiff.mpr huser (.duplicate "RoleEnum" "Admin" "ADMIN" "Admin") hclash,
    hcongr _ hagree huser hpost⟩

/-- Two models whose names become the same member fail a file of enums only. -/
theorem unselected_models_clash :
    ¬ ∀ (names : Names) (selected : List Category) (clash : Clash),
      EnumFile.build names selected = .error clash →
        clash.declaration ∈ (names.requests selected).map (·.1) := by
  intro h
  have hmem := h (.ofSummary ⟨[⟨"user", none⟩, ⟨"User", none⟩], [⟨"Role", ["ADMIN"]⟩]⟩) [.enums]
    (.duplicate "ModelName" "User" "user" "User") rfl
  have hrequests : (Names.requests (.ofSummary
      ⟨[⟨"user", none⟩, ⟨"User", none⟩], [⟨"Role", ["ADMIN"]⟩]⟩) [.enums]).map (·.1) =
    ["RoleEnum"] := rfl
  rw [hrequests] at hmem
  exact absurd hmem (by decide)

end SchemaEnums.Enums
