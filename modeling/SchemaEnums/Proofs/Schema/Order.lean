import SchemaEnums.Proofs.Schema.Concatenation
import SchemaEnums.Proofs.Schema.Sound

/-!
# Schema — Order

Blocks in another order.  Texts of one block each, with line feeds between them, are the schema of
these blocks (`Document.parse_joined`); and whether that is sound does not depend on the order,
while its models and enums come in the order of the texts (`Summary.read_joined_perm`).
-/

namespace SchemaEnums.Schema
open Text

/-! ### Texts of blocks -/

/-- The texts with a line feed between each two. -/
def joined (texts : List String) : String := "\n".intercalate texts

/-- The text is one block and nothing else, without a byte order mark. -/
structure IsBlockText (text : String) : Prop where
  block    : ∃ b, Document.parse text = .ok ⟨[b]⟩
  unmarked : text.toList.head? ≠ some '\ufeff'

/-- The blocks that a text holds by itself; none, if it is no schema. -/
def blocksOf (text : String) : List Block :=
  match Document.parse text with
  | .ok d    => d.blocks
  | .error _ => []

/-- The models that a text holds by itself. -/
def modelsOf (text : String) : List ModelSummary := (blocksOf text).filterMap Block.model?

/-- The enums that a text holds by itself. -/
def enumsOf (text : String) : List EnumSummary := (blocksOf text).filterMap Block.enum?

theorem blocksOf_eq {text : String} {d : Document} (h : Document.parse text = .ok d) :
    blocksOf text = d.blocks := by
  rw [blocksOf, h]

/-- A text of one block is not empty. -/
theorem IsBlockText.exists_head {text : String} (h : IsBlockText text) :
    ∃ x rest, text.toList = x :: rest ∧ x ≠ '\ufeff' := by
  obtain ⟨⟨b, hb⟩, hunmarked⟩ := h
  cases htext : text.toList with
  | nil =>
      rw [Document.parse, htext] at hb
      cases hb
  | cons x rest =>
      refine ⟨x, rest, rfl, ?_⟩
      rintro rfl
      exact hunmarked (by rw [htext]; rfl)

theorem joined_cons_head {text : String} (texts : List String) (h : IsBlockText text) :
    (joined (text :: texts)).toList.head? ≠ some '\ufeff' := by
  obtain ⟨x, rest, htext, hx⟩ := h.exists_head
  rw [joined, String.toList_intercalate, List.map_cons, intercalate_cons, htext]
  simpa using hx

/-- **Texts of one block each are, joined, the schema of these blocks.** -/
theorem Document.parse_joined : ∀ {texts : List String}, (∀ t ∈ texts, IsBlockText t) →
    ∃ d, Document.parse (joined texts) = .ok d ∧
      d.blocks.map Block.unplaced = (texts.flatMap blocksOf).map Block.unplaced
  | [], _ => ⟨⟨[]⟩, rfl, rfl⟩
  | [text], h => by
      obtain ⟨b, hb⟩ := (h text (by simp)).block
      refine ⟨⟨[b]⟩, by rw [joined, String.intercalate_singleton, hb], ?_⟩
      rw [List.flatMap_singleton, blocksOf_eq hb]
  | text :: next :: texts, h => by
      rw [List.forall_mem_cons] at h
      obtain ⟨b, hb⟩ := h.1.block
      obtain ⟨d, hd, hblocks⟩ := parse_joined h.2
      have happend := parse_append_eq hb (joined_cons_head texts (h.2 next (by simp)))
      rw [hd] at happend
      refine ⟨_, by rw [joined, String.intercalate_cons_cons]; exact happend, ?_⟩
      have hparts : (text :: next :: texts).flatMap blocksOf =
          [b] ++ (next :: texts).flatMap blocksOf := by rw [List.flatMap_cons, blocksOf_eq hb]
      rw [hparts, List.map_append, List.map_append, Block.map_unplaced_down, hblocks]

/-! ### Rearranged texts -/

theorem Document.summary_of_unplaced {d : Document} {bs : List Block}
    (h : d.blocks.map Block.unplaced = bs.map Block.unplaced) :
    d.summary = ⟨bs.filterMap Block.model?, bs.filterMap Block.enum?⟩ := by
  have hmodels := congrArg (List.filterMap Block.model?) h
  have henums := congrArg (List.filterMap Block.enum?) h
  simp only [List.filterMap_map, Function.comp_def, Block.model?_unplaced,
    Block.enum?_unplaced] at hmodels henums
  rw [summary, hmodels, henums]

/-- What the joined texts are read as, once they are sound. -/
theorem Summary.read_joined {texts : List String} {d : Document}
    (hd : Document.parse (joined texts) = .ok d)
    (hblocks : d.blocks.map Block.unplaced = (texts.flatMap blocksOf).map Block.unplaced) :
    Summary.read (joined texts) = match d.problem with
      | some e => .error e
      | none   => .ok ⟨texts.flatMap modelsOf, texts.flatMap enumsOf⟩ := by
  rw [Summary.read, Document.read_of_parse hd]
  cases d.problem with
  | some e => rfl
  | none =>
      show Except.ok d.summary = _
      rw [Document.summary_of_unplaced hblocks, List.filterMap_flatMap, List.filterMap_flatMap]
      rfl

/-- **The order of blocks does not matter.**  Texts of one block each, joined by line feeds, are
sound in every order or in none; and in each order the models and enums are those of the texts, one
text after another. -/
theorem Summary.read_joined_perm (texts texts' : List String)
    (h : ∀ t ∈ texts, IsBlockText t) (hperm : texts.Perm texts') :
    ((∃ s, Summary.read (joined texts) = .ok s) ↔ ∃ s, Summary.read (joined texts') = .ok s) ∧
    ∀ s s', Summary.read (joined texts) = .ok s → Summary.read (joined texts') = .ok s' →
      s = ⟨texts.flatMap modelsOf, texts.flatMap enumsOf⟩ ∧
      s' = ⟨texts'.flatMap modelsOf, texts'.flatMap enumsOf⟩ := by
  obtain ⟨d, hd, hblocks⟩ := Document.parse_joined h
  obtain ⟨d', hd', hblocks'⟩ :=
    Document.parse_joined fun t ht => h t (hperm.mem_iff.mpr ht)
  have hrearranged : d.Rearranged d' := by
    rw [Document.Rearranged, hblocks, hblocks']
    exact (hperm.flatMap_right blocksOf).map Block.unplaced
  have hsound := hrearranged.problem_eq_none_iff
  rw [Summary.read_joined hd hblocks, Summary.read_joined hd' hblocks']
  cases hproblem : d.problem with
  | none =>
      rw [hsound.mp hproblem]
      refine ⟨⟨fun _ => ⟨_, rfl⟩, fun _ => ⟨_, rfl⟩⟩, ?_⟩
      rintro s s' ⟨⟩ ⟨⟩
      exact ⟨rfl, rfl⟩
  | some e =>
      cases hproblem' : d'.problem with
      | none => rw [hsound.mpr hproblem'] at hproblem; cases hproblem
      | some e' => exact ⟨⟨nofun, nofun⟩, nofun⟩

/-- Two models that refer to each other, and an enum. -/
def cycleTexts : List String :=
  ["model A \x7b\n  b B\n  @@map(\"as\")\n\x7d", "model B \x7b\n  a A[]\n  k K\n\x7d",
   "enum K \x7b\n  X\n\x7d"]

theorem cycleTexts_isBlockText : ∀ t ∈ cycleTexts, IsBlockText t := by
  simp only [cycleTexts, List.forall_mem_cons, List.not_mem_nil, false_imp_iff, implies_true,
    and_true]
  exact ⟨⟨⟨_, rfl⟩, by decide⟩, ⟨⟨_, rfl⟩, by decide⟩, ⟨⟨_, rfl⟩, by decide⟩⟩

set_option maxRecDepth 4000 in
theorem cycleTexts_read : Summary.read (joined cycleTexts) =
    .ok ⟨[⟨"A", some "as"⟩, ⟨"B", none⟩], [⟨"K", ["X"]⟩]⟩ := rfl

theorem Summary.read_joined_perm_cycle :
    (∀ t ∈ cycleTexts, IsBlockText t) ∧ cycleTexts.Perm cycleTexts.reverse ∧
      Summary.read (joined cycleTexts.reverse) =
        .ok ⟨[⟨"B", none⟩, ⟨"A", some "as"⟩], [⟨"K", ["X"]⟩]⟩ := by
  have hperm : cycleTexts.Perm cycleTexts.reverse := cycleTexts.reverse_perm.symm
  refine ⟨cycleTexts_isBlockText, hperm, ?_⟩
  obtain ⟨hiff, hsame⟩ :=
    Summary.read_joined_perm cycleTexts cycleTexts.reverse cycleTexts_isBlockText hperm
  obtain ⟨s', hs'⟩ := hiff.mp ⟨_, cycleTexts_read⟩
  rw [hs', (hsame _ s' cycleTexts_read hs').2]
  rfl

end SchemaEnums.Schema
