import Mathlib.Logic.Function.Iterate
import SchemaEnums.Proofs.Schema.Concatenation
import SchemaEnums.Proofs.Schema.RoundTrip
import SchemaEnums.Proofs.Schema.Sound

/-!
# Schema — Stubs

A type that is reported as unknown can be declared behind the text, by a model with nothing but an
identifier.  Such a stub takes its type, and no other, from the unknown types
(`Document.unknownTypes_stub`), so declaring whatever is reported leads to a sound schema, in as
many steps as there are unknown types (`Summary.read_stubbed`).
-/

namespace SchemaEnums.Schema

/-- The text with a model of the given name behind it that has an identifier only. -/
def withStub (text type : String) : String :=
  text ++ "\nmodel " ++ type ++ " \x7b\n  id Int @id\n\x7d\n"

/-- The text with a stub for the type that is reported as unknown, if one is. -/
def stubbed (text : String) : String :=
  match Summary.read text with
  | .error (.unknownType _ _ type) => withStub text type.name
  | _                              => text

/-! ### One stub -/

/-- A model that has an identifier only. -/
def stub (type : String) : Block :=
  .model {
    kind       := .model
    name       := ⟨type, .start⟩
    fields     := [⟨⟨"id", .start⟩, ⟨"Int", .start⟩, .required, [⟨"id", []⟩]⟩]
    attributes := [] }

theorem stub_wellFormed {type : String} (h : IsName type.toList) : (stub type).WellFormed := by
  refine ⟨h, ?_, by simp⟩
  simp only [List.forall_mem_cons, List.not_mem_nil, false_imp_iff, implies_true, and_true]
  refine ⟨show IsName "id".toList by decide, show IsName "Int".toList by decide, ?_⟩
  simp only [List.forall_mem_cons, List.not_mem_nil, false_imp_iff, implies_true, and_true]
  exact ⟨IsName.isPath (by decide), by simp⟩

theorem stub_text (type : String) : (stub type).text = "model".toList ++ ' ' :: (type.toList ++
    ' ' :: '{' :: ((stub type).bodyText ++ ['\n'])) := rfl

/-- A stub is the canonical text of its model. -/
theorem withStub_eq (text type : String) :
    withStub text type = text ++ "\n" ++ Document.print ⟨[stub type]⟩ := by
  have hmodel : "\nmodel ".toList = "\n".toList ++ ("model".toList ++ [' ']) := rfl
  have hbody : " \x7b\n  id Int @id\n\x7d\n".toList =
      ' ' :: '{' :: ((stub type).bodyText ++ ['\n']) := rfl
  refine String.toList_injective ?_
  rw [withStub, Document.print, List.flatMap_singleton, stub_text]
  simp only [String.toList_append, String.toList_ofList, hmodel, hbody, List.append_assoc,
    List.cons_append, List.nil_append]

/-- **A stub is read as its model**, behind all blocks of the text. -/
theorem parse_withStub {text type : String} {d : Document} (hd : Document.parse text = .ok d)
    (hname : IsName type.toList) : ∃ d', Document.parse (withStub text type) = .ok d' ∧
      d'.Rearranged ⟨d.blocks ++ [stub type]⟩ := by
  obtain ⟨s, hs, hsame⟩ := Document.parse_print (d := ⟨[stub type]⟩) (by
    rintro b hb
    obtain rfl := List.mem_singleton.mp hb
    exact stub_wellFormed hname)
  have hblocks : s.blocks.map Block.unplaced = [stub type].map Block.unplaced :=
    congrArg Document.blocks hsame
  have happend := Document.parse_append_eq hd (b := Document.print ⟨[stub type]⟩) (by
    have hword : "model".toList.head? = some 'm' := by decide
    rw [Document.print, String.toList_ofList, List.flatMap_singleton, stub_text, List.head?_append,
      hword]
    simp)
  rw [hs] at happend
  refine ⟨_, by rw [withStub_eq]; exact happend, ?_⟩
  rw [Document.Rearranged, List.map_append, List.map_append, Block.map_unplaced_down, hblocks]

theorem Document.distinctNames_stub {d : Document} {type : String} (h : d.DistinctNames)
    (htype : type ∉ d.typeNames) :
    (⟨d.blocks ++ [stub type]⟩ : Document).DistinctNames := by
  rw [mem_typeNames_iff] at htype
  rw [DistinctNames, List.map_append, List.nodup_append]
  refine ⟨h, List.nodup_singleton _, fun a ha b hb => ?_⟩
  rw [List.map_singleton, List.mem_singleton] at hb
  intro hab
  rw [hab, hb] at ha
  exact htype ha

/-- **A stub takes its type, and no other, from the unknown types.** -/
theorem Document.unknownTypes_stub (d : Document) (type : String) :
    (⟨d.blocks ++ [stub type]⟩ : Document).unknownTypes = d.unknownTypes.erase type := by
  have hint : ∀ t ∈ (stub type).fieldTypes, t ∈ builtinTypes := by
    simp [stub, Block.fieldTypes, builtinTypes]
  have hdeclared : (stub type).declared = (false, type) := rfl
  ext t
  simp only [mem_unknownTypes_iff, mem_typeNames_iff, Finset.mem_erase, List.map_append,
    List.flatMap_append, List.mem_append, List.flatMap_singleton, List.map_singleton,
    List.mem_singleton, hdeclared, Prod.mk.injEq, true_and, not_or]
  constructor
  · rintro ⟨hmem | hmem, hbuiltin, hnames, hne⟩
    · exact ⟨hne, hmem, hbuiltin, hnames⟩
    · exact absurd (hint t hmem) hbuiltin
  · rintro ⟨hne, hmem, hbuiltin, hnames⟩
    exact ⟨.inl hmem, hbuiltin, hnames, hne⟩

/-! ### One stub after another -/

/-- The text is understood, its names are distinct, and these of its types are unknown. -/
def Lacks (text : String) (types : Finset String) : Prop :=
  ∃ d, Document.parse text = .ok d ∧ d.DistinctNames ∧ d.unknownTypes = types

variable {text : String} {types : Finset String}

/-- A text is accepted if it lacks no type, and else one of those it lacks is reported. -/
theorem Lacks.read (h : Lacks text types) :
    (types = ∅ ∧ ∃ s, Summary.read text = .ok s) ∨
      ∃ container field type, Summary.read text = .error (.unknownType container field type) ∧
        type.name ∈ types := by
  obtain ⟨d, hd, hdistinct, rfl⟩ := h
  rw [Summary.read, Document.read_of_parse hd]
  rcases Document.problem_of_distinct hdistinct with
    ⟨hnone, hempty⟩ | ⟨container, field, type, hsome, hmem⟩
  · rw [hnone]
    exact .inl ⟨hempty, _, rfl⟩
  · rw [hsome]
    exact .inr ⟨container, field, type, rfl, hmem⟩

/-- The types of fields are names. -/
theorem Document.isName_of_unknown {d : Document} {t : String} (h : Document.parse text = .ok d)
    (ht : t ∈ d.unknownTypes) : IsName t.toList := by
  obtain ⟨b, hb, htype⟩ := List.mem_flatMap.mp (mem_unknownTypes_iff.mp ht).1
  have hwf := wellFormed_of_parse h b hb
  cases b with
  | model b =>
      obtain ⟨f, hf, rfl⟩ := List.mem_map.mp htype
      exact (hwf.2.1 f hf).type
  | enum b => cases htype
  | config b => cases htype

theorem Lacks.withStub {type : String} (h : Lacks text types) (htype : type ∈ types) :
    Lacks (withStub text type) (types.erase type) := by
  obtain ⟨d, hd, hdistinct, rfl⟩ := h
  obtain ⟨d', hd', hrearranged⟩ := parse_withStub hd (Document.isName_of_unknown hd htype)
  refine ⟨d', hd', hrearranged.distinctNames_iff.mpr ?_, ?_⟩
  · exact Document.distinctNames_stub hdistinct (Document.mem_unknownTypes_iff.mp htype).2.2
  · rw [hrearranged.unknownTypes_eq, Document.unknownTypes_stub]

/-- **One step** leaves one type less unknown, if any is. -/
theorem Lacks.stubbed (h : Lacks text types) :
    ∃ types', Lacks (stubbed text) types' ∧ types'.card = types.card - 1 := by
  rcases h.read with ⟨rfl, s, hs⟩ | ⟨container, field, type, htype, hmem⟩
  · exact ⟨∅, by rwa [Schema.stubbed, hs], rfl⟩
  · refine ⟨types.erase type.name, ?_, Finset.card_erase_of_mem hmem⟩
    rw [Schema.stubbed, htype]
    exact h.withStub hmem

/-- **Any number of steps** leaves as many types less unknown. -/
theorem Lacks.iterate (h : Lacks text types) (n : Nat) :
    ∃ types', Lacks (Schema.stubbed^[n] text) types' ∧ types'.card = types.card - n := by
  induction n with
  | zero => exact ⟨types, h, rfl⟩
  | succ n ih =>
      obtain ⟨types', hlacks, hcard⟩ := ih
      obtain ⟨types'', hlacks', hcard'⟩ := hlacks.stubbed
      rw [Function.iterate_succ_apply']
      exact ⟨types'', hlacks', by omega⟩

/-- What is known of a text whose fields have an unknown type. -/
theorem lacks_of_read {container field : String} {type : Identifier}
    (h : Summary.read text = .error (.unknownType container field type)) :
    ∃ d, Document.parse text = .ok d ∧ Lacks text d.unknownTypes ∧ type.name ∈ d.unknownTypes := by
  rw [Summary.read, map_eq_error_iff] at h
  cases hd : Document.parse text with
  | error e => rw [Document.read_of_malformed hd] at h; cases h
  | ok d =>
      rw [Document.read_of_parse hd] at h
      cases hproblem : d.problem with
      | none => rw [hproblem] at h; cases h
      | some e =>
          rw [hproblem] at h
          cases h
          have hdistinct := Document.distinct_of_problem (d := d) fun name hname => by
            rw [hproblem] at hname
            cases hname
          refine ⟨d, rfl, ⟨d, hd, hdistinct, rfl⟩, ?_⟩
          rcases Document.problem_of_distinct hdistinct with ⟨hnone, -⟩ | ⟨_, _, _, hsome, hmem⟩
          · rw [hnone] at hproblem
            cases hproblem
          · rw [hproblem] at hsome
            cases hsome
            exact hmem

/-- **Stubs for what is reported lead to a sound schema.**  Behind a stub for the reported type the
text is still understood, no name is declared twice, and that type is not reported again; and
repeated for each type that is reported, this ends in a sound schema after exactly as many steps as
the text has types of fields that are neither built in nor declared. -/
theorem Summary.read_stubbed (text container field : String) (type : Identifier)
    (h : Summary.read text = .error (.unknownType container field type)) :
    (∀ e, Summary.read (withStub text type.name) = .error e →
      ∃ container' field' type', e = .unknownType container' field' type' ∧
        type'.name ≠ type.name) ∧
    ∃ d, Document.parse text = .ok d ∧
      (∀ n < d.unknownTypes.card, ∃ container' field' type',
        Summary.read (stubbed^[n] text) = .error (.unknownType container' field' type')) ∧
      ∃ s, Summary.read (stubbed^[d.unknownTypes.card] text) = .ok s := by
  obtain ⟨d, hd, hlacks, hmem⟩ := lacks_of_read h
  refine ⟨fun e he => ?_, d, hd, fun n hn => ?_, ?_⟩
  · rcases (hlacks.withStub hmem).read with ⟨-, s, hs⟩ | ⟨container', field', type', hread, hmem'⟩
    · rw [hs] at he
      cases he
    · rw [hread] at he
      cases he
      exact ⟨container', field', type', rfl, (Finset.mem_erase.mp hmem').1⟩
  · obtain ⟨types', hlacks', hcard⟩ := hlacks.iterate n
    rcases hlacks'.read with ⟨rfl, -⟩ | ⟨container', field', type', hread, -⟩
    · rw [Finset.card_empty] at hcard
      omega
    · exact ⟨container', field', type', hread⟩
  · obtain ⟨types', hlacks', hcard⟩ := hlacks.iterate d.unknownTypes.card
    rcases hlacks'.read with ⟨-, hread⟩ | ⟨_, _, _, -, hmem'⟩
    · exact hread
    · rw [Finset.card_eq_zero.mp (hcard.trans (Nat.sub_self _))] at hmem'
      exact absurd hmem' (Finset.notMem_empty _)

/-- Three fields, of two unknown types. -/
def lackingText : String := "model A \x7b\n  b B?\n  c C[]\n  d B\n\x7d"

/-- What `lackingText` is read as. -/
def lackingDocument : Document where
  blocks := [.model {
    kind       := .model
    name       := ⟨"A", ⟨1, 7⟩⟩
    fields     := [⟨⟨"b", ⟨2, 3⟩⟩, ⟨"B", ⟨2, 5⟩⟩, .optional, []⟩,
      ⟨⟨"c", ⟨3, 3⟩⟩, ⟨"C", ⟨3, 5⟩⟩, .list, []⟩, ⟨⟨"d", ⟨4, 3⟩⟩, ⟨"B", ⟨4, 5⟩⟩, .required, []⟩]
    attributes := [] }]

theorem Summary.read_stubbed_twice :
    Summary.read lackingText = .error (.unknownType "A" "b" ⟨"B", ⟨2, 5⟩⟩) ∧
      lackingDocument.unknownTypes.card = 2 ∧
      (∃ container field type,
        Summary.read (stubbed lackingText) = .error (.unknownType container field type)) ∧
      ∃ s, Summary.read (stubbed (stubbed lackingText)) = .ok s := by
  have hparse : Document.parse lackingText = .ok lackingDocument := rfl
  have hread : Summary.read lackingText = .error (.unknownType "A" "b" ⟨"B", ⟨2, 5⟩⟩) := rfl
  have hcard : lackingDocument.unknownTypes.card = 2 := by decide
  obtain ⟨-, d, hd, hreported, hsound⟩ := Summary.read_stubbed _ _ _ _ hread
  obtain rfl : lackingDocument = d := Except.ok.inj (hparse.symm.trans hd)
  rw [hcard] at hreported hsound
  exact ⟨hread, hcard, hreported 1 (by decide), hsound⟩

end SchemaEnums.Schema
