import Mathlib.Data.List.Basic
import SchemaEnums.Generate
import SchemaEnums.Proofs.Enums.Contents

/-!
# Generate — Strict

Strict runs and lenient ones.  They are alike as long as the schema file is accepted
(`ofFile_of_accepts`).  If it is rejected the strict run ends there (`ofFile_strict`), and the
lenient one reports the same and makes the text for a schema that says nothing (`ofFile_lenient`);
that text can always be made, whatever is selected (`EnumFile.build_empty`).
-/

namespace SchemaEnums.Enums
open Schema

variable {selected : List Category}

/-! ### A schema that says nothing -/

theorem whenSelected_ok {category : Category} {ds : List Declaration} :
    whenSelected selected category (.ok ds) = .ok (if category ∈ selected then ds else []) := by
  rw [whenSelected]
  by_cases hmem : category ∈ selected
  · rw [if_pos (by simpa using hmem), if_pos hmem]
  · rw [if_neg (by simpa using hmem), if_neg hmem]

/-- **A schema that says nothing always gives a file**: the fixed enums without members. -/
theorem EnumFile.build_empty (selected : List Category) :
    EnumFile.build (Names.ofSummary .empty) selected = .ok ⟨declarationsFor ⟨[]⟩ selected⟩ := by
  have hbuild : EnumFile.build (Names.ofSummary .empty) selected = (do
      let accessors ← whenSelected selected .prismaModel (.ok [⟨"PrismaModel", []⟩])
      let models ← whenSelected selected .modelName (.ok [⟨"ModelName", []⟩])
      let tables ← whenSelected selected .tableName (.ok [⟨"TableName", []⟩])
      let enums ← whenSelected selected .enums (.ok [])
      .ok ⟨accessors ++ models ++ tables ++ enums⟩) := rfl
  rw [hbuild, whenSelected_ok, whenSelected_ok, whenSelected_ok, whenSelected_ok]
  rfl

end SchemaEnums.Enums

namespace SchemaEnums.Generate
open Schema Enums Layout Files Log

variable {d : Disk} {directory : Location} {path : String} {document : Document}
  {e : Schema.Error} {selected : List Category} {o : Options}

/-! ### Schema files -/

/-- The path leads to a text, and that is a sound schema. -/
structure Accepts (d : Disk) (directory : Location) (path : String) (document : Document) :
    Prop where
  text  : ∃ text, d.readText directory path = .ok text ∧ Document.parse text = .ok document
  sound : document.problem = none

/-- The path leads to no text, or to one that is no schema or none that is sound. -/
inductive Rejects (d : Disk) (directory : Location) (path : String) : Schema.Error → Prop where
  | unreadable {e : Files.Problem} (h : d.readText directory path = .error e) :
      Rejects d directory path (.unreadable path e)
  | malformed {text : String} {e : SyntaxError} (hread : d.readText directory path = .ok text)
      (h : Document.parse text = .error e) : Rejects d directory path (.malformed e)
  | unsound {text : String} {document : Document} {e : Schema.Error}
      (hread : d.readText directory path = .ok text) (hparse : Document.parse text = .ok document)
      (h : document.problem = some e) : Rejects d directory path e

theorem readDocument_of_accepts (h : Accepts d directory path document) :
    readDocument d directory path = .ok document := by
  obtain ⟨⟨text, htext, hparse⟩, hsound⟩ := h
  rw [readDocument, htext]
  exact Document.read_eq_ok_iff.mpr ⟨hparse, hsound⟩

theorem readDocument_of_rejects (h : Rejects d directory path e) :
    readDocument d directory path = .error e := by
  cases h with
  | unreadable h => rw [readDocument, h]
  | malformed hread h =>
      rw [readDocument, hread]
      exact Document.read_of_malformed h
  | unsound hread hparse h =>
      rw [readDocument, hread]
      exact (Document.read_of_parse hparse).trans (by rw [h])

/-- A schema file is accepted or rejected. -/
theorem accepts_or_rejects (d : Disk) (directory : Location) (path : String) :
    (∃ document, Accepts d directory path document) ∨ ∃ e, Rejects d directory path e := by
  cases hread : d.readText directory path with
  | error e => exact .inr ⟨_, .unreadable hread⟩
  | ok text =>
      cases hparse : Document.parse text with
      | error e => exact .inr ⟨_, .malformed hread hparse⟩
      | ok document =>
          cases hproblem : document.problem with
          | none => exact .inl ⟨document, ⟨text, hread, hparse⟩, hproblem⟩
          | some e => exact .inr ⟨e, .unsound hread hparse hproblem⟩

/-! ### Runs -/

/-- The text for a schema that says nothing. -/
def emptyText (selected : List Category) (o : Options) : String :=
  render o ⟨declarationsFor ⟨[]⟩ selected⟩

theorem ofSummary_empty : ofSummary .empty selected o =
    (.ok (emptyText selected o), [.enumsBuilt (declarationsFor ⟨[]⟩ selected).length]) := by
  rw [ofSummary, EnumFile.build_empty]
  rfl

/-- A file that is accepted gives the text for its schema, in a strict run and in any other. -/
theorem ofFile_of_accepts (h : Accepts d directory path document) (strict : Bool) :
    ofFile d directory path strict selected o =
      ((ofSummary document.summary selected o).1,
        document.blocks.filterMap skipped? ++
          [.schemaParsed path document.summary.models.length document.summary.enums.length] ++
          (ofSummary document.summary selected o).2) := by
  rw [ofFile, load, readDocument_of_accepts h]

theorem ofFile_strict (h : Rejects d directory path e) :
    ofFile d directory path true selected o =
      (.error (.schema path e), [.schemaRejected path e]) := by
  rw [ofFile, load, readDocument_of_rejects h]
  rfl

theorem ofFile_lenient (h : Rejects d directory path e) :
    ofFile d directory path false selected o = (.ok (emptyText selected o),
      [.schemaRejected path e, .enumsBuilt (declarationsFor ⟨[]⟩ selected).length]) := by
  rw [ofFile, load, readDocument_of_rejects h]
  exact congrArg (fun r : Except Failure String × List Event =>
    (r.1, .schemaRejected path e :: r.2)) ofSummary_empty

/-! ### Reports -/

theorem level_of_skipped {b : Block} {event : Event} (h : skipped? b = some event) :
    event.level = .debug := by
  cases b with
  | model b =>
      rw [skipped?] at h
      split at h
      · cases h
      · cases h
        rfl
  | enum b => cases h
  | config b =>
      cases h
      rfl

theorem level_of_ofSummary {s : Summary} {event : Event} (h : event ∈ (ofSummary s selected o).2) :
    event.level = .debug := by
  rw [ofSummary] at h
  split at h
  · rw [List.mem_singleton] at h
    rw [h]
    rfl
  · cases h

/-- What is reported of a file that is accepted matters to those only who look for it. -/
theorem level_of_accepts {strict : Bool} {event : Event} (h : Accepts d directory path document)
    (hevent : event ∈ (ofFile d directory path strict selected o).2) : event.level = .debug := by
  rw [ofFile_of_accepts h, List.mem_append, List.mem_append, List.mem_singleton] at hevent
  rcases hevent with (hskipped | rfl) | hbuilt
  · obtain ⟨b, -, hb⟩ := List.mem_filterMap.mp hskipped
    exact level_of_skipped hb
  · rfl
  · exact level_of_ofSummary hbuilt

/-! ### Strict and lenient -/

theorem ofSummary_failure {s : Summary} {failure : Failure}
    (h : (ofSummary s selected o).1 = .error failure) : ∃ clash, failure = .clash clash := by
  rw [ofSummary] at h
  split at h
  · cases h
  · cases h
    exact ⟨_, rfl⟩

/-- A lenient run fails for a clash of names and for nothing else. -/
theorem lenient_failure {failure : Failure}
    (h : (ofFile d directory path false selected o).1 = .error failure) :
    ∃ clash, failure = .clash clash := by
  rcases accepts_or_rejects d directory path with ⟨document, haccepts⟩ | ⟨e, hrejects⟩
  · rw [ofFile_of_accepts haccepts] at h
    exact ofSummary_failure h
  · rw [ofFile_lenient hrejects] at h
    cases h

theorem ofFile_of_empty {strict : Bool} (h : d.readText directory path = .ok "") :
    (ofFile d directory path strict selected o).1 = .ok (emptyText selected o) := by
  have haccepts : Accepts d directory path ⟨[]⟩ := ⟨⟨"", h, rfl⟩, rfl⟩
  rw [ofFile_of_accepts haccepts]
  exact congrArg Prod.fst ofSummary_empty

/-- **Strict and lenient runs agree.**  Any schema file is accepted or rejected.  If it is accepted
both give the same, and nothing is reported as an error.  If it is rejected the strict run fails
with the reason, and the lenient one gives the text that an empty file gives; each of them reports
that one error.  So a lenient run fails for a clash of names and for nothing else. -/
theorem strict_and_lenient_agree (d : Disk) (directory : Location) (path : String)
    (selected : List Category) (o : Options) :
    ((∃ document, Accepts d directory path document) ∨ ∃ e, Rejects d directory path e) ∧
    (∀ document, Accepts d directory path document →
      ofFile d directory path true selected o = ofFile d directory path false selected o ∧
      (ofFile d directory path true selected o).1 = (ofSummary document.summary selected o).1 ∧
      ∀ event ∈ (ofFile d directory path true selected o).2, event.level ≠ .error) ∧
    (∀ e, Rejects d directory path e →
      (ofFile d directory path true selected o).1 = .error (.schema path e) ∧
      (ofFile d directory path false selected o).1 = .ok (emptyText selected o) ∧
      ∀ strict, (ofFile d directory path strict selected o).2.filter (·.level = .error) =
        [.schemaRejected path e]) ∧
    (ofSummary .empty selected o).1 = .ok (emptyText selected o) ∧
    (∀ d' directory' path' strict, d'.readText directory' path' = .ok "" →
      (ofFile d' directory' path' strict selected o).1 = .ok (emptyText selected o)) ∧
    ∀ failure, (ofFile d directory path false selected o).1 = .error failure →
      ∃ clash, failure = .clash clash := by
  refine ⟨accepts_or_rejects d directory path, fun document h => ⟨?_, ?_, fun event hevent => ?_⟩,
    fun e h => ⟨?_, ?_, fun strict => ?_⟩, ?_, fun d' directory' path' strict => ofFile_of_empty,
    fun failure => lenient_failure⟩
  · rw [ofFile_of_accepts h, ofFile_of_accepts h]
  · rw [ofFile_of_accepts h]
  · rw [level_of_accepts h hevent]
    exact nofun
  · rw [ofFile_strict h]
  · rw [ofFile_lenient h]
  · cases strict with
    | true => rw [ofFile_strict h]; rfl
    | false => rw [ofFile_lenient h]; rfl
  · rw [ofSummary_empty]

/-- A disk with an empty file, and one with an enum whose values become the same member. -/
def schemaDisk : Disk where
  entries := [(["blank"], .file "".toUTF8),
    (["role"], .file "enum Role \x7b\nADMIN\nAdmin\n\x7d".toUTF8)]

theorem strict_and_lenient_agree_schemas :
    Accepts schemaDisk [] "blank" ⟨[]⟩ ∧
    ofFile schemaDisk [] "blank" true Category.all .fallback =
      ofFile schemaDisk [] "blank" false Category.all .fallback ∧
    Rejects schemaDisk [] "missing" (.unreadable "missing" .notFound) ∧
    (ofFile schemaDisk [] "missing" true Category.all .fallback).1 =
      .error (.schema "missing" (.unreadable "missing" .notFound)) ∧
    (ofFile schemaDisk [] "missing" false Category.all .fallback).1 =
      (ofFile schemaDisk [] "blank" true Category.all .fallback).1 ∧
    (ofFile schemaDisk [] "role" false Category.all .fallback).1 =
      .error (.clash (.duplicate "RoleEnum" "Admin" "ADMIN" "Admin")) ∧
    ∃ clash, Failure.clash (.duplicate "RoleEnum" "Admin" "ADMIN" "Admin") = .clash clash := by
  have htext : schemaDisk.readText [] "blank" = .ok "" := by decide +kernel
  have haccepts : Accepts schemaDisk [] "blank" ⟨[]⟩ := ⟨⟨"", htext, rfl⟩, rfl⟩
  have hrejects : Rejects schemaDisk [] "missing" (.unreadable "missing" .notFound) :=
    .unreadable (by decide +kernel)
  have hclash : (ofFile schemaDisk [] "role" false Category.all .fallback).1 =
      .error (.clash (.duplicate "RoleEnum" "Admin" "ADMIN" "Admin")) := by decide +kernel
  obtain ⟨-, hagree, -⟩ := strict_and_lenient_agree schemaDisk [] "blank" Category.all .fallback
  obtain ⟨-, -, hmissing, -, hempty, -⟩ :=
    strict_and_lenient_agree schemaDisk [] "missing" Category.all .fallback
  obtain ⟨-, -, -, -, -, hfailure⟩ :=
    strict_and_lenient_agree schemaDisk [] "role" Category.all .fallback
  obtain ⟨hstrict, hlenient, -⟩ := hmissing _ hrejects
  exact ⟨haccepts, (hagree _ haccepts).1, hrejects, hstrict,
    hlenient.trans (hempty _ _ _ _ htext).symm, hclash, hfailure _ hclash⟩

end SchemaEnums.Generate
