import Mathlib.Data.Finset.Card
import Mathlib.Data.List.Perm.Basic
import SchemaEnums.Proofs.Schema.Down
import SchemaEnums.Proofs.Schema.Verdict

/-!
# Schema — Sound

What a check looks at: the names that the blocks declare and the types of their fields.  A schema is
sound if no name is declared twice in its name space and no type is unknown
(`Document.problem_eq_none_iff`); with distinct names, what is reported is one of the unknown types
(`Document.problem_of_distinct`).

Neither the places of the blocks nor their order matter for that (`Document.Rearranged`).
-/

namespace SchemaEnums.Schema

/-! ### Names and types -/

/-- The name that the block declares, with the name space it is declared in. -/
def Block.declared (b : Block) : Bool × String := (b.isConfig, b.name.name)

/-- The types of the block's fields. -/
def Block.fieldTypes : Block → List String
  | .model b  => b.fields.map (·.type.name)
  | .enum _   => []
  | .config _ => []

/-- No name is declared twice in its name space. -/
def Document.DistinctNames (d : Document) : Prop := (d.blocks.map Block.declared).Nodup

/-- The types of fields that are neither built in nor declared. -/
def Document.unknownTypes (d : Document) : Finset String :=
  ((d.blocks.flatMap Block.fieldTypes).filter fun t =>
    t ∉ builtinTypes ∧ t ∉ d.typeNames).toFinset

theorem Document.mem_typeNames_iff {d : Document} {t : String} :
    t ∈ d.typeNames ↔ (false, t) ∈ d.blocks.map Block.declared := by
  simp only [typeNames, List.mem_map, List.mem_filter, Block.declared, Prod.mk.injEq,
    Bool.not_eq_true', and_assoc]

theorem Document.mem_unknownTypes_iff {d : Document} {t : String} : t ∈ d.unknownTypes ↔
    t ∈ d.blocks.flatMap Block.fieldTypes ∧ t ∉ builtinTypes ∧ t ∉ d.typeNames := by
  simp only [unknownTypes, List.mem_toFinset, List.mem_filter, decide_eq_true_eq]

/-- The unknown types are those of the fields that do not resolve. -/
theorem Document.mem_unknownTypes_iff_field {d : Document} {t : String} : t ∈ d.unknownTypes ↔
    ∃ x ∈ d.fields, ¬ d.Resolves x.2 ∧ x.2.type.name = t := by
  have hfields : d.blocks.flatMap Block.fieldTypes = d.fields.map (·.2.type.name) := by
    rw [fields, List.map_flatMap]
    refine congrArg (List.flatMap · d.blocks) (funext fun b => ?_)
    cases b with
    | model b => rw [Block.fieldTypes, Block.fields, List.map_map]; rfl
    | enum b => rfl
    | config b => rfl
  rw [mem_unknownTypes_iff, hfields, List.mem_map]
  constructor
  · rintro ⟨⟨x, hx, rfl⟩, hunknown⟩
    exact ⟨x, hx, by rwa [resolves_iff, not_or], rfl⟩
  · rintro ⟨x, hx, hunresolved, rfl⟩
    exact ⟨⟨x, hx, rfl⟩, by rwa [resolves_iff, not_or] at hunresolved⟩

theorem Document.distinctNames_iff_pairwise {d : Document} :
    d.DistinctNames ↔ d.blocks.Pairwise fun a b => ¬ a.Clashes b := by
  rw [DistinctNames, List.Nodup, List.pairwise_map]
  simp only [Block.declared, ne_eq, Prod.mk.injEq, Block.Clashes]

/-! ### Problems -/

theorem Document.sound_iff {d : Document} :
    d.Sound ↔ d.DistinctNames ∧ d.unknownTypes = ∅ := by
  have hfields : (∀ x ∈ d.fields, d.Resolves x.2) ↔ d.unknownTypes = ∅ := by
    simp only [Finset.eq_empty_iff_forall_notMem, mem_unknownTypes_iff_field, not_exists, not_and]
    constructor
    · intro h t x hx hunresolved
      exact absurd (h x hx) hunresolved
    · intro h x hx
      by_contra hunresolved
      exact h _ x hx hunresolved rfl
  rw [distinctNames_iff_pairwise, pairwise_clashes_iff, ← hfields]
  constructor
  · rintro ⟨types, configs, fields⟩
    exact ⟨⟨types, configs⟩, fields⟩
  · rintro ⟨⟨types, configs⟩, fields⟩
    exact ⟨types, configs, fields⟩

/-- **A schema is sound** if no name is declared twice and no type is unknown. -/
theorem Document.problem_eq_none_iff {d : Document} :
    d.problem = none ↔ d.DistinctNames ∧ d.unknownTypes = ∅ :=
  problem_eq_none_iff_sound.trans sound_iff

/-- **Where names are distinct, an unknown type is reported exactly if there is one.** -/
theorem Document.problem_of_distinct {d : Document} (h : d.DistinctNames) :
    (d.problem = none ∧ d.unknownTypes = ∅) ∨
      ∃ container field type, d.problem = some (.unknownType container field type) ∧
        type.name ∈ d.unknownTypes := by
  cases hproblem : d.problem with
  | none => exact .inl ⟨rfl, (problem_eq_none_iff.mp hproblem).2⟩
  | some e =>
      cases problem_eq_some_iff.mp hproblem with
      | declaredTwice hblocks hrepeated _ =>
          obtain ⟨a, ha, hclashes⟩ := hrepeated
          rw [distinctNames_iff_pairwise, hblocks, List.pairwise_append] at h
          exact absurd hclashes (h.2.2 a ha _ List.mem_cons_self)
      | unknownType _ _ hfields hunresolved _ =>
          have hfield := hfields ▸ List.mem_append_right _ List.mem_cons_self
          exact .inr ⟨_, _, _, rfl, mem_unknownTypes_iff_field.mpr ⟨_, hfield, hunresolved, rfl⟩⟩

/-- Only where names are distinct is anything but a repeated name reported. -/
theorem Document.distinct_of_problem {d : Document}
    (h : ∀ name, d.problem ≠ some (.declaredTwice name)) : d.DistinctNames := by
  rw [distinctNames_iff_pairwise, pairwise_clashes_iff]
  cases hproblem : d.problem with
  | none =>
      have hsound := problem_eq_none_iff_sound.mp hproblem
      exact ⟨hsound.types, hsound.configs⟩
  | some e =>
      cases problem_eq_some_iff.mp hproblem with
      | declaredTwice => exact absurd hproblem (h _)
      | unknownType htypes hconfigs => exact ⟨htypes, hconfigs⟩

/-! ### Places -/

section Places

variable {k : Nat}

@[simp] theorem Block.declared_unplaced (b : Block) : b.unplaced.declared = b.declared := by
  cases b <;> rfl

@[simp] theorem Block.fieldTypes_unplaced (b : Block) : b.unplaced.fieldTypes = b.fieldTypes := by
  cases b with
  | model b => simp only [unplaced, fieldTypes, List.map_map]; rfl
  | enum b => rfl
  | config b => rfl

@[simp] theorem Block.model?_unplaced (b : Block) : b.unplaced.model? = b.model? := by
  cases b <;> rfl

@[simp] theorem Block.enum?_unplaced (b : Block) : b.unplaced.enum? = b.enum? := by
  cases b with
  | model b => rfl
  | enum b => simp only [unplaced, enum?, List.map_map]; rfl
  | config b => rfl

/-- A block further down is the same block elsewhere. -/
@[simp] theorem Block.unplaced_down (b : Block) : (b.down k).unplaced = b.unplaced := by
  cases b with
  | model b => simp only [down, unplaced, List.map_map]; rfl
  | enum b => simp only [down, unplaced, List.map_map]; rfl
  | config b => simp only [down, unplaced, List.map_map]; rfl

theorem Block.map_unplaced_down (bs : List Block) :
    (bs.map (Block.down k)).map Block.unplaced = bs.map Block.unplaced := by
  rw [List.map_map]
  exact List.map_congr_left fun b _ => b.unplaced_down

end Places

/-! ### Order -/

/-- The schemas have the same blocks, at any places and in any order. -/
def Document.Rearranged (d d' : Document) : Prop :=
  (d.blocks.map Block.unplaced).Perm (d'.blocks.map Block.unplaced)

namespace Document.Rearranged

variable {d d' : Document}

theorem declared (h : d.Rearranged d') :
    (d.blocks.map Block.declared).Perm (d'.blocks.map Block.declared) := by
  simpa only [List.map_map, Function.comp_def, Block.declared_unplaced] using h.map Block.declared

theorem fieldTypes (h : d.Rearranged d') :
    (d.blocks.flatMap Block.fieldTypes).Perm (d'.blocks.flatMap Block.fieldTypes) := by
  simpa only [List.flatMap_map, Block.fieldTypes_unplaced] using h.flatMap_right Block.fieldTypes

theorem distinctNames_iff (h : d.Rearranged d') : d.DistinctNames ↔ d'.DistinctNames :=
  h.declared.nodup_iff

theorem unknownTypes_eq (h : d.Rearranged d') : d.unknownTypes = d'.unknownTypes := by
  ext t
  simp only [mem_unknownTypes_iff, mem_typeNames_iff, h.declared.mem_iff, h.fieldTypes.mem_iff]

/-- **The same blocks are sound in any order.** -/
theorem problem_eq_none_iff (h : d.Rearranged d') : d.problem = none ↔ d'.problem = none := by
  rw [Document.problem_eq_none_iff, Document.problem_eq_none_iff, h.distinctNames_iff,
    h.unknownTypes_eq]

end Document.Rearranged

end SchemaEnums.Schema
