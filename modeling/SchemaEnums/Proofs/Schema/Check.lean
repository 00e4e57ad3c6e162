import SchemaEnums.Proofs.Outcome
import SchemaEnums.Schema.Summary

/-!
# Schema — Check

What it means that a schema is sound.  `firstRepeated` finds no block exactly if the names are
distinct in each of the two name spaces (`firstRepeated_eq_none_iff`), so the enums of a schema that
was read have names of their own (`nodup_enum_names`); and otherwise it finds the first block whose
name was there before (`firstRepeated_eq_some_iff`).
-/

namespace SchemaEnums.Schema

/-- Two blocks declare one name in one name space. -/
def Block.Clashes (a b : Block) : Prop :=
  a.isConfig = b.isConfig ∧ a.name.name = b.name.name

theorem any_clashes_iff {seen : List Block} {b : Block} :
    (seen.any fun a => a.isConfig == b.isConfig && a.name.name == b.name.name) = true ↔
      ∃ a ∈ seen, a.Clashes b := by
  simp only [List.any_eq_true, Bool.and_eq_true, beq_iff_eq, Block.Clashes]

theorem firstRepeated_eq_none_iff {seen blocks : List Block} :
    firstRepeated seen blocks = none ↔
      (∀ b ∈ blocks, ∀ a ∈ seen, ¬ a.Clashes b) ∧
        blocks.Pairwise fun a b => ¬ a.Clashes b := by
  induction blocks generalizing seen with
  | nil => simp [firstRepeated]
  | cons b blocks ih =>
      rw [firstRepeated]
      split
      case isTrue h =>
        obtain ⟨a, ha, hab⟩ := any_clashes_iff.mp h
        exact iff_of_false (by simp) fun hall => hall.1 b (by simp) a ha hab
      case isFalse h =>
        have hseen : ∀ a ∈ seen, ¬ a.Clashes b := fun a ha hab =>
          h (any_clashes_iff.mpr ⟨a, ha, hab⟩)
        -- the block is behind `seen` for the blocks after it
        simp only [ih, List.forall_mem_cons, List.pairwise_cons]
        constructor
        · rintro ⟨hblocks, hpairwise⟩
          exact ⟨⟨hseen, fun c hc => (hblocks c hc).2⟩, fun c hc => (hblocks c hc).1, hpairwise⟩
        · rintro ⟨⟨-, hblocks⟩, hb, hpairwise⟩
          exact ⟨fun c hc => ⟨hb c hc, hblocks c hc⟩, hpairwise⟩

/-- The name that is found is that of the first block behind one it clashes with. -/
theorem firstRepeated_eq_some_iff {seen blocks : List Block} {i : Identifier} :
    firstRepeated seen blocks = some i ↔ ∃ before b after, blocks = before ++ b :: after ∧
      firstRepeated seen before = none ∧ (∃ a, (a ∈ seen ∨ a ∈ before) ∧ a.Clashes b) ∧
      i = b.name := by
  induction blocks generalizing seen with
  | nil => simp [firstRepeated]
  | cons c blocks ih =>
      rw [firstRepeated]
      split
      case isTrue h =>
        obtain ⟨a, ha, hac⟩ := any_clashes_iff.mp h
        constructor
        · intro hi
          exact ⟨[], c, blocks, rfl, rfl, ⟨a, .inl ha, hac⟩, (Option.some.inj hi).symm⟩
        · rintro ⟨before, b, after, hblocks, hbefore, -, rfl⟩
          cases before with
          | nil => rw [(List.cons.inj hblocks).1]
          | cons x before =>
              -- the block is refused by itself, so nothing can stand in front of it
              obtain ⟨rfl, -⟩ := List.cons.inj hblocks
              rw [firstRepeated, if_pos h] at hbefore
              cases hbefore
      case isFalse h =>
        rw [ih]
        constructor
        · rintro ⟨before, b, after, rfl, hbefore, ⟨a, ha, hab⟩, rfl⟩
          refine ⟨c :: before, b, after, rfl, by rw [firstRepeated, if_neg h, hbefore],
            ⟨a, ?_, hab⟩, rfl⟩
          simpa [or_assoc, or_left_comm] using ha
        · rintro ⟨before, b, after, hblocks, hbefore, ⟨a, ha, hab⟩, rfl⟩
          cases before with
          | nil =>
              obtain ⟨rfl, -⟩ := List.cons.inj hblocks
              exact absurd (any_clashes_iff.mpr ⟨a, by simpa using ha, hab⟩) h
          | cons x before =>
              obtain ⟨rfl, rfl⟩ := List.cons.inj hblocks
              rw [firstRepeated, if_neg h] at hbefore
              exact ⟨before, b, after, rfl, hbefore,
                ⟨a, by simpa [or_assoc, or_left_comm] using ha, hab⟩, rfl⟩

theorem Document.read_of_malformed {text : String} {e : SyntaxError}
    (h : Document.parse text = .error e) : Document.read text = .error (.malformed e) := by
  rw [Document.read, h]
  rfl

/-- What a text is read as, once it is understood. -/
theorem Document.read_of_parse {text : String} {d : Document} (h : Document.parse text = .ok d) :
    Document.read text = match d.problem with
      | some e => .error e
      | none   => .ok d := by
  rw [Document.read, h]
  show (d.check >>= fun _ => _) = _
  rw [Document.check]
  cases d.problem <;> rfl

/-- A schema that was read was understood, and no problem was found in it. -/
theorem Document.read_eq_ok_iff {text : String} {d : Document} :
    Document.read text = .ok d ↔ Document.parse text = .ok d ∧ d.problem = none := by
  constructor
  · intro h
    cases hp : Document.parse text with
    | error e => rw [read_of_malformed hp] at h; cases h
    | ok d' =>
        rw [read_of_parse hp] at h
        cases hproblem : d'.problem with
        | some e => rw [hproblem] at h; cases h
        | none =>
            rw [hproblem] at h
            cases h
            exact ⟨rfl, hproblem⟩
  · rintro ⟨hp, hproblem⟩
    rw [read_of_parse hp, hproblem]

theorem Block.enum?_eq_some_iff {b : Block} {s : EnumSummary} :
    b.enum? = some s ↔ ∃ e, b = .enum e ∧ s = ⟨e.name.name, e.values.map (·.name.name)⟩ := by
  cases b <;> simp [Block.enum?, eq_comm]

/-- The enums of a sound schema have distinct names. -/
theorem Document.nodup_enum_names {d : Document} (h : d.problem = none) :
    (d.summary.enums.map (·.name)).Nodup := by
  have hrepeated : firstRepeated [] d.blocks = none :=
    Option.map_eq_none_iff.mp (Option.or_eq_none_iff.mp h).1
  rw [List.Nodup, List.pairwise_map]
  refine ((firstRepeated_eq_none_iff.mp hrepeated).2).filterMap _ ?_
  intro a b hab s hs t ht heq
  obtain ⟨e, rfl, rfl⟩ := Block.enum?_eq_some_iff.mp hs
  obtain ⟨e', rfl, rfl⟩ := Block.enum?_eq_some_iff.mp ht
  exact hab ⟨rfl, heq⟩

end SchemaEnums.Schema
