import Mathlib.Algebra.GroupWithZero.Nat
import SchemaEnums.Proofs.Layout.ReadBack

/-!
# Layout — Endings

The option for the ends of lines changes those and nothing else.

A file is its lines with an ending behind each (`render_toList`), the lines are the same for every
ending (`fileLines_endOfLine`), and none of them holds a line break, because a value that has one is
quoted with an escape in its place (`EnumFile.Unbroken.oneLine`).  So a file with line feeds has one
for each line and no other (`count_linesText`), the number of its lines is told by what it declares
(`length_fileLines`), and any other ending is put in the place of the line feeds
(`endings_replaced`).
-/

namespace SchemaEnums.Layout
open Enums

variable {o : Options} {ls : List String}

/-! ### Line feeds and other endings -/

/-- The options with another ending of lines. -/
def Options.ending (o : Options) (e : EndOfLine) : Options := { o with endOfLine := e }

/-- The text with `ending` in the place of each line feed. -/
def withEnding (ending text : List Char) : List Char :=
  text.flatMap fun c => if c = '\n' then ending else [c]

theorem withEnding_of_notMem {ending text : List Char} (h : '\n' ∉ text) :
    withEnding ending text = text := by
  induction text with
  | nil => rfl
  | cons c text ih =>
      rw [List.mem_cons, not_or] at h
      rw [withEnding, List.flatMap_cons, if_neg (Ne.symm h.1), List.singleton_append]
      exact congrArg _ (ih h.2)

theorem OneLine.lineFeed_notMem {l : String} (h : OneLine l) : '\n' ∉ l.toList :=
  fun hmem => (h '\n' hmem).1 rfl

theorem OneLine.return_notMem {l : String} (h : OneLine l) : '\r' ∉ l.toList :=
  fun hmem => (h '\r' hmem).2 rfl

theorem linesText_ending (o : Options) (e : EndOfLine) (ls : List String) :
    linesText (o.ending e) ls = ls.flatMap fun l => l.toList ++ e.text.toList := rfl

/-- Where no line holds a line break, another ending stands exactly where the line feeds were. -/
theorem withEnding_linesText (h : ∀ l ∈ ls, OneLine l) (e : EndOfLine) :
    withEnding e.text.toList (linesText (o.ending .lf) ls) = linesText (o.ending e) ls := by
  have hfeed : withEnding e.text.toList EndOfLine.lf.text.toList = e.text.toList :=
    List.append_nil _
  rw [linesText_ending, linesText_ending, withEnding, List.flatMap_assoc]
  refine List.flatMap_congr fun l hl => ?_
  rw [List.flatMap_append, ← withEnding, ← withEnding, hfeed,
    withEnding_of_notMem (h l hl).lineFeed_notMem]

/-- A text whose lines end in line feeds has one for each line. -/
theorem count_linesText (h : ∀ l ∈ ls, OneLine l) :
    (linesText (o.ending .lf) ls).count '\n' = ls.length := by
  induction ls with
  | nil => rfl
  | cons l ls ih =>
      obtain ⟨hl, hls⟩ := List.forall_mem_cons.mp h
      have hfeed : EndOfLine.lf.text.toList.count '\n' = 1 := rfl
      rw [linesText_ending, List.flatMap_cons, ← linesText_ending o, List.count_append,
        List.count_append, List.count_eq_zero_of_not_mem hl.lineFeed_notMem, hfeed, ih hls,
        List.length_cons, Nat.zero_add, Nat.add_comm]

theorem return_notMem_linesText (h : ∀ l ∈ ls, OneLine l) :
    '\r' ∉ linesText (o.ending .lf) ls := by
  have hfeed : '\r' ∉ EndOfLine.lf.text.toList := by decide
  rw [linesText_ending]
  intro hmem
  obtain ⟨l, hl, hmem⟩ := List.mem_flatMap.mp hmem
  exact (List.mem_append.mp hmem).elim (h l hl).return_notMem hfeed

/-- The last line has an ending too. -/
theorem linesText_ends (hne : ls ≠ []) : ∃ body, linesText (o.ending .lf) ls = body ++ ['\n'] := by
  obtain ⟨front, l, rfl⟩ := (List.eq_nil_or_concat' ls).resolve_left hne
  refine ⟨linesText (o.ending .lf) front ++ l.toList, ?_⟩
  rw [linesText_ending, List.flatMap_append, List.flatMap_singleton, ← List.append_assoc]
  rfl

/-! ### The number of lines -/

theorem length_itemLines {indent last : String} :
    ∀ items : List String, (itemLines indent last items).length = items.length
  | []            => rfl
  | [_]           => rfl
  | _ :: j :: is => congrArg (· + 1) (length_itemLines (j :: is))

/-- An enum without members takes one line, and one with members two more than it has. -/
theorem length_declarationLines (o : Options) (d : Declaration) :
    (declarationLines o d).length = if d.members = [] then 1 else d.members.length + 2 := by
  rw [declarationLines]
  split
  case h_1 h => rw [if_pos h]; rfl
  case h_2 h =>
    rw [if_neg h]
    simp only [List.length_append, length_itemLines, List.length_map, List.length_singleton]
    omega

/-- The export stands on one line: it has no names, or that line fits the print width. -/
def Options.Inlines (o : Options) (names : List String) : Prop :=
  names = [] ∨ (exportLine o names).length ≤ o.printWidth

instance (o : Options) (names : List String) : Decidable (o.Inlines names) :=
  inferInstanceAs (Decidable (_ ∨ _))

theorem length_exportLines (o : Options) (names : List String) :
    (exportLines o names).length = if o.Inlines names then 1 else names.length + 2 := by
  cases names with
  | nil => rw [if_pos (.inl rfl)]; rfl
  | cons n ns =>
      have hiff : o.Inlines (n :: ns) ↔ (exportLine o (n :: ns)).length ≤ o.printWidth :=
        or_iff_right (List.cons_ne_nil n ns)
      rw [exportLines, if_congr hiff rfl rfl]
      · split
        case isTrue => rfl
        case isFalse =>
          simp only [List.length_append, length_itemLines, List.length_singleton]
          omega
      · exact List.cons_ne_nil n ns

theorem length_fileLines (o : Options) (f : EnumFile) :
    (fileLines o f).length =
      2 + (f.declarations.map fun d => if d.members = [] then 2 else d.members.length + 3).sum +
        if o.Inlines f.exports then 1 else f.exports.length + 2 := by
  have hspaced : ∀ d : Declaration, (declarationLines o d ++ [""]).length =
      if d.members = [] then 2 else d.members.length + 3 := by
    intro d
    rw [List.length_append, length_declarationLines]
    split <;> rfl
  simp only [fileLines, List.length_append, length_exportLines, List.length_flatMap, hspaced]
  rfl

/-! ### Files -/

/-- The lines of a file do not depend on how lines end. -/
theorem fileLines_endOfLine (o : Options) (e : EndOfLine) (f : EnumFile) :
    fileLines (o.ending e) f = fileLines o f := rfl

theorem fileLines_ne_nil (o : Options) (f : EnumFile) : fileLines o f ≠ [] := nofun

/-- **Another ending of lines only changes the line endings.**  With line feeds, the text of a file
has no carriage return and ends in a line feed; with another ending, that stands in the place of each
line feed; and the line feeds are as many as the lines: the banner and a blank line, for each enum
its lines and a blank one, and those of the export. -/
theorem endings_replaced (o : Options) (f : EnumFile) (h : EnumFile.Unbroken f) :
    let text := fun e => (render (o.ending e) f).toList
    '\r' ∉ text .lf ∧ (∃ body, text .lf = body ++ ['\n']) ∧
      text .crlf = withEnding ['\r', '\n'] (text .lf) ∧ text .cr = withEnding ['\r'] (text .lf) ∧
      text .auto = withEnding ['\n'] (text .lf) ∧
      (text .lf).count '\n' =
        2 + (f.declarations.map fun d => if d.members = [] then 2 else d.members.length + 3).sum +
          if o.Inlines f.exports then 1 else f.exports.length + 2 := by
  intro text
  have htext : ∀ e, text e = linesText (o.ending e) (fileLines o f) := by
    intro e
    rw [← fileLines_endOfLine o e f]
    exact render_toList (o.ending e) f
  have hlines := h.oneLine o
  have hending : ∀ e, text e = withEnding e.text.toList (text .lf) := by
    intro e
    rw [htext, htext, withEnding_linesText hlines]
  refine ⟨?_, ?_, hending .crlf, hending .cr, hending .auto, ?_⟩
  · rw [htext]
    exact return_notMem_linesText hlines
  · rw [htext]
    exact linesText_ends (fileLines_ne_nil o f)
  · rw [htext, count_linesText hlines, length_fileLines]

/-- Values with line breaks, and an export with a line for each name. -/
theorem endings_replaced_wrapped :
    let o : Options := { Options.default with printWidth := 0, endOfLine := .cr }
    let f : EnumFile := ⟨[⟨"AEnum", [⟨"a", "'\r\n\""⟩, ⟨"b c", "\n"⟩]⟩, ⟨"BEnum", []⟩]⟩
    EnumFile.Unbroken f ∧
      (render o f).toList = withEnding ['\r'] (render (o.ending .lf) f).toList ∧
      (render (o.ending .lf) f).toList.count '\n' = 13 := by
  intro o f
  have h : EnumFile.Unbroken f := by decide
  obtain ⟨-, -, -, hcr, -, hcount⟩ := endings_replaced o f h
  exact ⟨h, hcr, hcount.trans (by decide)⟩

end SchemaEnums.Layout
