import Mathlib.Data.List.Pairwise
import SchemaEnums.Proofs.Schema.Check

/-!
# Schema — Verdict

What a check says of a schema, whether that was read from a text or not.

The check accepts the schemas that are sound (`Document.Sound`), and of any other it reports the
first problem (`Document.FirstProblem`): the first block whose name was declared before it in the
same name space, or else the first field whose type is neither built in nor declared.  These are
all the answers there are, so the two exclude each other and one of them holds
(`Document.check_decides`).

The first field is looked for block by block, and within a block field by field; `Document.fields`
is the one list in which it comes first (`Document.findSome?_unknownField`).
-/

namespace SchemaEnums.Schema

/-! ### Names -/

/-- The names of the configuration blocks. -/
def Document.configNames (d : Document) : List String :=
  (d.blocks.filter (·.isConfig)).map (·.name.name)

/-- Names are distinct in both name spaces exactly if no two blocks clash. -/
theorem Document.pairwise_clashes_iff {d : Document} :
    (d.blocks.Pairwise fun a b => ¬ a.Clashes b) ↔ d.typeNames.Nodup ∧ d.configNames.Nodup := by
  rw [typeNames, configNames, List.Nodup, List.pairwise_map, List.pairwise_map,
    List.pairwise_filter, List.pairwise_filter, ← List.pairwise_and_iff]
  refine List.Pairwise.iff fun {a b} => ?_
  cases ha : a.isConfig <;> cases hb : b.isConfig <;> simp [Block.Clashes, ha, hb]

/-! ### Fields -/

/-- The fields of the block, each with the block that holds it. -/
def Block.fields : Block → List (ModelBlock × Field)
  | .model b  => b.fields.map (b, ·)
  | .enum _   => []
  | .config _ => []

/-- The fields of a schema in their order, each with the block that holds it. -/
def Document.fields (d : Document) : List (ModelBlock × Field) :=
  d.blocks.flatMap Block.fields

theorem Document.mem_fields_iff {d : Document} {b : ModelBlock} {f : Field} :
    (b, f) ∈ d.fields ↔ .model b ∈ d.blocks ∧ f ∈ b.fields := by
  rw [fields, List.mem_flatMap]
  constructor
  · rintro ⟨c, hc, hmem⟩
    cases c with
    | model c =>
        obtain ⟨g, hg, heq⟩ := List.mem_map.mp hmem
        cases heq
        exact ⟨hc, hg⟩
    | enum c => cases hmem
    | config c => cases hmem
  · rintro ⟨hb, hf⟩
    exact ⟨_, hb, List.mem_map_of_mem hf⟩

/-- The type of the field is built in, or the name of a block that is not a configuration block,
wherever that stands. -/
def Document.Resolves (d : Document) (f : Field) : Prop :=
  f.type.name ∈ builtinTypes ∨ ∃ b ∈ d.blocks, b.isConfig = false ∧ b.name.name = f.type.name

theorem Document.resolves_iff {d : Document} {f : Field} :
    d.Resolves f ↔ f.type.name ∈ builtinTypes ∨ f.type.name ∈ d.typeNames := by
  simp only [Resolves, typeNames, List.mem_map, List.mem_filter, Bool.not_eq_true', and_assoc]

theorem Document.isKnown_iff {d : Document} {f : Field} :
    f.isKnown d.typeNames = true ↔ d.Resolves f := by
  simp only [resolves_iff, Field.isKnown, Bool.or_eq_true, List.contains_iff_mem]

theorem Block.unknownField_eq (declared : List String) (b : Block) :
    b.unknownField declared = (b.fields.find? fun x => !x.2.isKnown declared).map fun x =>
      .unknownType x.1.name.name x.2.name.name x.2.type := by
  cases b with
  | model b =>
      simp only [unknownField, fields, List.find?_map, Option.map_map]
      rfl
  | enum b => rfl
  | config b => rfl

/-- Block by block, the field that is reported is the first unknown one of the schema. -/
theorem Document.findSome?_unknownField (d : Document) (declared : List String) :
    d.blocks.findSome? (Block.unknownField declared) =
      (d.fields.find? fun x => !x.2.isKnown declared).map fun x =>
        .unknownType x.1.name.name x.2.name.name x.2.type := by
  rw [fields, List.find?_flatMap, List.map_findSome?]
  refine congrArg (List.findSome? · d.blocks) (funext fun b => ?_)
  exact b.unknownField_eq declared

theorem Document.no_unresolved_iff {d : Document} :
    d.blocks.findSome? (Block.unknownField d.typeNames) = none ↔
      ∀ x ∈ d.fields, d.Resolves x.2 := by
  simp only [findSome?_unknownField, Option.map_eq_none_iff, List.find?_eq_none, Bool.not_eq_true',
    Bool.not_eq_false, isKnown_iff]

theorem Document.unresolved_iff {d : Document} {e : Error} :
    d.blocks.findSome? (Block.unknownField d.typeNames) = some e ↔
      ∃ before b f after, d.fields = before ++ (b, f) :: after ∧ ¬ d.Resolves f ∧
        (∀ x ∈ before, d.Resolves x.2) ∧ e = .unknownType b.name.name f.name.name f.type := by
  simp only [findSome?_unknownField, Option.map_eq_some_iff, List.find?_eq_some_iff_append,
    Bool.not_eq_true', Bool.not_not, ← isKnown_iff, Bool.not_eq_true]
  constructor
  · rintro ⟨⟨b, f⟩, ⟨hunknown, before, after, hfields, hbefore⟩, rfl⟩
    exact ⟨before, b, f, after, hfields, hunknown, hbefore, rfl⟩
  · rintro ⟨before, b, f, after, hfields, hunknown, hbefore, rfl⟩
    exact ⟨(b, f), ⟨hunknown, before, after, hfields, hbefore⟩, rfl⟩

/-! ### The verdict -/

/-- No name is declared twice in its name space, and the type of every field resolves. -/
structure Document.Sound (d : Document) : Prop where
  types   : d.typeNames.Nodup
  configs : d.configNames.Nodup
  fields  : ∀ x ∈ d.fields, d.Resolves x.2

/-- The first problem of a schema: names come before types. -/
inductive Document.FirstProblem (d : Document) : Error → Prop where
  /-- The first block whose name a block before it has in the same name space. -/
  | declaredTwice {before : List Block} {b : Block} {after : List Block}
      (blocks : d.blocks = before ++ b :: after) (repeated : ∃ a ∈ before, a.Clashes b)
      (first : before.Pairwise fun a b => ¬ a.Clashes b) : d.FirstProblem (.declaredTwice b.name)
  /-- The first field whose type does not resolve, where no name is declared twice. -/
  | unknownType {before : List (ModelBlock × Field)} {b : ModelBlock} {f : Field}
      {after : List (ModelBlock × Field)} (types : d.typeNames.Nodup)
      (configs : d.configNames.Nodup) (fields : d.fields = before ++ (b, f) :: after)
      (unresolved : ¬ d.Resolves f) (first : ∀ x ∈ before, d.Resolves x.2) :
      d.FirstProblem (.unknownType b.name.name f.name.name f.type)

theorem Document.no_repeated_iff {d : Document} :
    firstRepeated [] d.blocks = none ↔ d.typeNames.Nodup ∧ d.configNames.Nodup := by
  rw [← pairwise_clashes_iff, Schema.firstRepeated_eq_none_iff]
  simp only [List.not_mem_nil, false_imp_iff, implies_true, true_and]

theorem Document.problem_eq_none_iff_sound {d : Document} : d.problem = none ↔ d.Sound := by
  rw [problem, Option.or_eq_none_iff, Option.map_eq_none_iff, no_repeated_iff, no_unresolved_iff]
  constructor
  · rintro ⟨⟨types, configs⟩, fields⟩
    exact ⟨types, configs, fields⟩
  · rintro ⟨types, configs, fields⟩
    exact ⟨⟨types, configs⟩, fields⟩

theorem Document.problem_eq_some_iff {d : Document} {e : Error} :
    d.problem = some e ↔ d.FirstProblem e := by
  rw [problem, Option.or_eq_some_iff, Option.map_eq_none_iff, no_repeated_iff, unresolved_iff]
  simp only [Option.map_eq_some_iff, firstRepeated_eq_some_iff, Schema.firstRepeated_eq_none_iff,
    List.not_mem_nil, false_imp_iff, implies_true, true_and, false_or]
  constructor
  · rintro (⟨_, ⟨before, b, after, hblocks, hfirst, hrepeated, rfl⟩, rfl⟩ |
      ⟨⟨types, configs⟩, before, b, f, after, hfields, hunresolved, hfirst, rfl⟩)
    · exact .declaredTwice hblocks hrepeated hfirst
    · exact .unknownType types configs hfields hunresolved hfirst
  · intro h
    cases h with
    | declaredTwice hblocks hrepeated hfirst =>
        exact .inl ⟨_, ⟨_, _, _, hblocks, hfirst, hrepeated, rfl⟩, rfl⟩
    | unknownType types configs hfields hunresolved hfirst =>
        exact .inr ⟨⟨types, configs⟩, _, _, _, _, hfields, hunresolved, hfirst, rfl⟩

/-- **The verdict of a check.**  It accepts a schema exactly if that is sound, and it reports an
error exactly if that is the first problem of the schema. -/
theorem Document.check_decides (d : Document) :
    (d.check = .ok () ↔ d.Sound) ∧ ∀ e, d.check = .error e ↔ d.FirstProblem e := by
  rw [check, ← problem_eq_none_iff_sound]
  simp only [← problem_eq_some_iff]
  cases d.problem with
  | none =>
      refine ⟨iff_of_true rfl rfl, fun e => ?_⟩
      simp only [reduceCtorEq]
  | some e =>
      refine ⟨?_, fun e' => ?_⟩
      · simp only [reduceCtorEq]
      · simp only [Except.error.injEq, Option.some.injEq]

end SchemaEnums.Schema
