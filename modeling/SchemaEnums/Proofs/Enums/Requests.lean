import SchemaEnums.Enums.Build
import SchemaEnums.Proofs.Enums.Members

/-!
# Enums — Requests

When a file can be made, and what it fails with when it cannot.

A category asks for declarations, and each of them is made or clashes by itself (`requestsOf`).  A
build makes those of the selected categories and, whatever is selected, that of the models' names;
it fails with the first clash among them, and otherwise holds what the selected categories declare
(`EnumFile.build_settles`).

The proof goes through `Settles`, which says of a computation that it gives a certain value unless
one of a list of requests clashes; it is kept by binding (`Settles.bind`), so the build is gone
through once, step by step.
-/

namespace SchemaEnums.Enums

variable {α β : Type} {names : Names} {selected : List Category} {clash : Clash}

/-! ### Requests -/

/-- The enum in which the clash is. -/
def Clash.declaration : Clash → String
  | duplicate declaration _ _ _ => declaration
  | invalid declaration _ _     => declaration

/-- A declaration that is asked for: its name, and what becomes of it. -/
abbrev Request : Type := String × Except Clash Declaration

/-- The clash of a request that cannot be met. -/
def Request.clash? (r : Request) : Option Clash :=
  match r.2 with
  | .error clash => some clash
  | .ok _        => none

/-- The first clash in a list of requests. -/
def firstClash (requests : List Request) : Option Clash :=
  requests.findSome? Request.clash?

/-- What the categories with `p` are given, in the order of the file. -/
def Category.collect (p : Category → Prop) [DecidablePred p] (give : Category → List α) : List α :=
  Category.all.flatMap fun c => if p c then give c else []

/-- What a category asks for by itself.  The tables' enum asks for nothing where it is made of the
models' members. -/
def Names.requestsOf (names : Names) : Category → List Request
  | .prismaModel =>
    [("PrismaModel", Declaration.make "PrismaModel" Naming.pascalize names.accessors)]
  | .modelName   => [("ModelName", Declaration.make "ModelName" Naming.pascalize names.models)]
  | .tableName   =>
    if names.tables = [] then []
    else [("TableName", Declaration.make "TableName" Naming.pascalize names.tables)]
  | .enums       => names.enums.map fun e => (e.1 ++ "Enum", declareEnum e)

/-- The category is selected, or it is the models' and the tables' enum is made of its members. -/
def Names.Needs (names : Names) (selected : List Category) (category : Category) : Prop :=
  category ∈ selected ∨ category = .modelName ∧ .tableName ∈ selected ∧ names.tables = []

instance (names : Names) (selected : List Category) : DecidablePred (names.Needs selected) :=
  fun _ => inferInstanceAs (Decidable (_ ∨ _))

/-- What the selected categories ask for, in the order of the file. -/
def Names.requests (names : Names) (selected : List Category) : List Request :=
  Category.collect (names.Needs selected) names.requestsOf

/-- What a category declares where nothing clashes. -/
def Names.declarationsOf (names : Names) : Category → List Declaration
  | .prismaModel => [⟨"PrismaModel", membersOf Naming.pascalize names.accessors⟩]
  | .modelName   => [⟨"ModelName", membersOf Naming.pascalize names.models⟩]
  | .tableName   =>
    [⟨"TableName", membersOf Naming.pascalize
      (if names.tables.isEmpty then names.models else names.tables)⟩]
  | .enums       =>
    names.enums.map fun e => ⟨e.1 ++ "Enum", membersOf Naming.memberName e.2⟩

/-- What the selected categories declare, in the order of the file. -/
def Names.declarations (names : Names) (selected : List Category) : List Declaration :=
  Category.collect (· ∈ selected) names.declarationsOf

/-! ### Category by category -/

theorem Category.mem_all (c : Category) : c ∈ Category.all := by
  cases c <;> decide

section Collect

variable {p : Category → Prop} [DecidablePred p] {give : Category → List α}

theorem Category.collect_eq : Category.collect p give =
    (if p .prismaModel then give .prismaModel else []) ++
    ((if p .modelName then give .modelName else []) ++
    ((if p .tableName then give .tableName else []) ++
    ((if p .enums then give .enums else []) ++ []))) := rfl

theorem Category.mem_collect {x : α} : x ∈ Category.collect p give ↔ ∃ c, p c ∧ x ∈ give c := by
  simp only [Category.collect, List.mem_flatMap]
  constructor
  · rintro ⟨c, -, hx⟩
    split at hx
    case isTrue hc => exact ⟨c, hc, hx⟩
    case isFalse => cases hx
  · rintro ⟨c, hc, hx⟩
    exact ⟨c, c.mem_all, by rwa [if_pos hc]⟩

end Collect

theorem Names.mem_requestsOf_tableName {r : Request} : r ∈ names.requestsOf .tableName ↔
    names.tables ≠ [] ∧
      r = ("TableName", Declaration.make "TableName" Naming.pascalize names.tables) := by
  rw [requestsOf]
  by_cases h : names.tables = []
  · rw [if_pos h]
    exact iff_of_false List.not_mem_nil fun hr => hr.1 h
  · rw [if_neg h, List.mem_singleton, and_iff_right h]

/-! ### Clashes of requests -/

theorem Request.clash?_eq_some_iff {r : Request} : r.clash? = some clash ↔ r.2 = .error clash := by
  obtain ⟨name, outcome⟩ := r
  cases outcome <;> simp [Request.clash?]

theorem firstClash_append (rs ss : List Request) :
    firstClash (rs ++ ss) = (firstClash rs).or (firstClash ss) :=
  List.findSome?_append

theorem firstClash_eq_none_iff {rs : List Request} :
    firstClash rs = none ↔ ∀ r ∈ rs, ∀ clash, r.2 ≠ .error clash := by
  rw [firstClash, List.findSome?_eq_none_iff]
  simp only [Option.eq_none_iff_forall_ne_some, ne_eq, Request.clash?_eq_some_iff]

theorem exists_of_firstClash {rs : List Request} (h : firstClash rs = some clash) :
    ∃ name, (name, .error clash) ∈ rs := by
  obtain ⟨⟨name, outcome⟩, hmem, hclash⟩ := List.exists_of_findSome?_eq_some h
  cases Request.clash?_eq_some_iff.mp hclash
  exact ⟨name, hmem⟩

/-- A declaration that cannot be made is blamed under its name. -/
theorem Declaration.make_clash {name : String} {identifier : String → String}
    {values : List String} (h : Declaration.make name identifier values = .error clash) :
    clash.declaration = name := by
  cases Declaration.make_eq_error_iff.mp h with
  | invalid => rfl
  | duplicate => rfl

theorem Names.requestsOf_clash {c : Category} {r : Request} (hr : r ∈ names.requestsOf c)
    (h : r.2 = .error clash) : clash.declaration = r.1 := by
  have hmake : ∃ identifier values, r.2 = Declaration.make r.1 identifier values := by
    cases c with
    | prismaModel => rw [List.mem_singleton.mp hr]; exact ⟨_, _, rfl⟩
    | modelName => rw [List.mem_singleton.mp hr]; exact ⟨_, _, rfl⟩
    | tableName => rw [(mem_requestsOf_tableName.mp hr).2]; exact ⟨_, _, rfl⟩
    | enums =>
        obtain ⟨e, -, rfl⟩ := List.mem_map.mp hr
        exact ⟨_, _, rfl⟩
  obtain ⟨identifier, values, hmake⟩ := hmake
  exact Declaration.make_clash (hmake.symm.trans h)

/-- A clash among what is asked for is blamed on an enum that is asked for. -/
theorem Names.mem_requests_of_firstClash (h : firstClash (names.requests selected) = some clash) :
    (clash.declaration, .error clash) ∈ names.requests selected := by
  obtain ⟨name, hmem⟩ := exists_of_firstClash h
  obtain ⟨c, -, hc⟩ := Category.mem_collect.mp hmem
  rwa [requestsOf_clash hc rfl]

/-! ### What a computation comes to -/

/-- The computation gives the value, unless a request clashes: then it fails with the first
clash. -/
def Settles (r : Except Clash α) (rs : List Request) (a : α) : Prop :=
  r = match firstClash rs with
    | some clash => .error clash
    | none       => .ok a

theorem Settles.eq_error_iff {r : Except Clash α} {rs : List Request} {a : α}
    (h : Settles r rs a) : r = .error clash ↔ firstClash rs = some clash := by
  rw [h]
  split
  case h_1 hrs => simp [hrs]
  case h_2 hrs => simp [hrs]

theorem Settles.eq_ok_iff {r : Except Clash α} {rs : List Request} {a b : α} (h : Settles r rs a) :
    r = .ok b ↔ firstClash rs = none ∧ a = b := by
  rw [h]
  split
  case h_1 hrs => simp [hrs]
  case h_2 hrs => simp [hrs]

theorem Settles.ok (a : α) : Settles (.ok a) [] a := rfl

theorem Settles.bind {r : Except Clash α} {f : α → Except Clash β} {rs ss : List Request} {a : α}
    {b : β} (hr : Settles r rs a) (hf : Settles (f a) ss b) : Settles (r >>= f) (rs ++ ss) b := by
  rw [Settles] at hr
  rw [Settles, firstClash_append]
  cases hrs : firstClash rs with
  | some clash => rw [hr, hrs]; rfl
  | none =>
      rw [hr, hrs]
      exact hf

/-- A computation asks for itself. -/
theorem Settles.make (name : String) (identifier : String → String) (values : List String) :
    Settles (Declaration.make name identifier values)
      [(name, Declaration.make name identifier values)] ⟨name, membersOf identifier values⟩ := by
  rw [Settles, firstClash, List.findSome?_singleton, Request.clash?]
  cases h : Declaration.make name identifier values with
  | error clash => rfl
  | ok d => rw [Declaration.make_eq h]

theorem Settles.whenSelected {r : Except Clash (List Declaration)} {rs : List Request}
    {ds : List Declaration} (h : Settles r rs ds) (selected : List Category) (c : Category) :
    Settles (whenSelected selected c r) (if c ∈ selected then rs else [])
      (if c ∈ selected then ds else []) := by
  rw [Enums.whenSelected]
  by_cases hmem : c ∈ selected
  · rwa [if_pos (by simpa using hmem), if_pos hmem, if_pos hmem]
  · rw [if_neg (by simpa using hmem), if_neg hmem, if_neg hmem]
    exact .ok []

theorem Settles.singleton {r : Except Clash Declaration} {rs : List Request} {d : Declaration}
    (h : Settles r rs d) : Settles (do let d ← r; .ok [d]) rs [d] := by
  rw [← List.append_nil rs]
  exact h.bind (.ok [d])

/-! ### The build -/

theorem declareEnums_settles : ∀ es : List (String × List String),
    Settles (declareEnums es) (es.map fun e => (e.1 ++ "Enum", declareEnum e))
      (es.map fun e => ⟨e.1 ++ "Enum", membersOf Naming.memberName e.2⟩)
  | []      => .ok []
  | e :: es => by
      have hrest := (declareEnums_settles es).bind
        (f := fun ds => .ok (⟨e.1 ++ "Enum", membersOf Naming.memberName e.2⟩ :: ds)) (.ok _)
      rw [List.append_nil] at hrest
      exact (Settles.make (e.1 ++ "Enum") Naming.memberName e.2).bind hrest

theorem declareTables_settles (names : Names) : Settles
    (declareTables names ⟨"ModelName", membersOf Naming.pascalize names.models⟩)
    (names.requestsOf .tableName)
    ⟨"TableName", membersOf Naming.pascalize
      (if names.tables.isEmpty then names.models else names.tables)⟩ := by
  rw [declareTables, Names.requestsOf]
  by_cases h : names.tables = []
  · rw [if_pos (by simpa using h), if_pos h, if_pos (by simpa using h)]
    exact .ok _
  · rw [if_neg (by simpa using h), if_neg h, if_neg (by simpa using h)]
    exact .make ..

/-- **What a build comes to.**  It fails with the first clash among the declarations that are asked
for, those of the models' names with them in any case, and otherwise it gives what the selected
categories declare. -/
theorem EnumFile.build_settles (names : Names) (selected : List Category) :
    Settles (EnumFile.build names selected) (names.requests (.modelName :: selected))
      ⟨names.declarations selected⟩ := by
  have hrequests : names.requests (.modelName :: selected) =
      (if .prismaModel ∈ selected then names.requestsOf .prismaModel else []) ++
      (names.requestsOf .modelName ++
      ((if .modelName ∈ selected then [] else []) ++
      ((if .tableName ∈ selected then names.requestsOf .tableName else []) ++
      ((if .enums ∈ selected then names.requestsOf .enums else []) ++ [])))) := by
    simp [Names.requests, Category.collect_eq, Names.Needs]
  have hdeclarations : names.declarations selected =
      (if .prismaModel ∈ selected then names.declarationsOf .prismaModel else []) ++
      (if .modelName ∈ selected then names.declarationsOf .modelName else []) ++
      (if .tableName ∈ selected then names.declarationsOf .tableName else []) ++
      (if .enums ∈ selected then names.declarationsOf .enums else []) := by
    simp [Names.declarations, Category.collect_eq]
  rw [hrequests, hdeclarations, EnumFile.build]
  refine ((Settles.make ..).singleton.whenSelected selected .prismaModel).bind ?_
  refine (Settles.make ..).bind ?_
  refine ((Settles.ok _).whenSelected selected .modelName).bind ?_
  refine ((declareTables_settles names).singleton.whenSelected selected .tableName).bind ?_
  refine ((declareEnums_settles names.enums).whenSelected selected .enums).bind ?_
  exact .ok _

/-! ### Where the members come from -/

/-- What is asked for is made where nothing clashes. -/
theorem make_of_firstClash_eq_none {rs : List Request} {name : String}
    {identifier : String → String} {values : List String} (hrs : firstClash rs = none)
    (h : (name, Declaration.make name identifier values) ∈ rs) :
    Declaration.make name identifier values = .ok ⟨name, membersOf identifier values⟩ := by
  cases hmake : Declaration.make name identifier values with
  | error clash => exact absurd hmake (firstClash_eq_none_iff.mp hrs _ h clash)
  | ok d => rw [Declaration.make_eq hmake]

/-- Whatever a file declares, its members were made from values; for the tables' enum these may be
the values of the models'. -/
theorem EnumFile.made_of_build {f : EnumFile} (h : EnumFile.build names selected = .ok f) :
    ∀ d ∈ f.declarations, d.Made := by
  obtain ⟨hnone, rfl⟩ := (EnumFile.build_settles names selected).eq_ok_iff.mp h
  have hmake : ∀ {c name identifier values}, names.Needs (.modelName :: selected) c →
      (name, Declaration.make name identifier values) ∈ names.requestsOf c →
        Declaration.make name identifier values = .ok ⟨name, membersOf identifier values⟩ :=
    fun hc hr => make_of_firstClash_eq_none hnone (Category.mem_collect.mpr ⟨_, hc, hr⟩)
  have hmodels := hmake (c := .modelName) (.inl (List.mem_cons_self ..)) (List.mem_singleton_self _)
  intro d hd
  obtain ⟨c, hc, hdc⟩ := Category.mem_collect.mp hd
  have hneeds : names.Needs (.modelName :: selected) c := .inl (List.mem_cons_of_mem _ hc)
  cases c with
  | prismaModel =>
      rw [List.mem_singleton.mp hdc]
      exact ⟨_, _, _, hmake hneeds (List.mem_singleton_self _)⟩
  | modelName =>
      rw [List.mem_singleton.mp hdc]
      exact ⟨_, _, _, hmodels⟩
  | tableName =>
      rw [List.mem_singleton.mp hdc]
      by_cases htables : names.tables = []
      · rw [if_pos (by simpa using htables)]
        exact ⟨_, _, _, hmodels⟩
      · rw [if_neg (by simpa using htables)]
        exact ⟨_, _, _, hmake hneeds (Names.mem_requestsOf_tableName.mpr ⟨htables, rfl⟩)⟩
  | enums =>
      obtain ⟨e, he, rfl⟩ := List.mem_map.mp hdc
      exact ⟨_, _, _, hmake hneeds (List.mem_map_of_mem he)⟩

end SchemaEnums.Enums
