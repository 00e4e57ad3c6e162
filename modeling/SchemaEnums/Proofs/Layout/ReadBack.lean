import SchemaEnums.Proofs.Layout.OneLine

/-!
# Layout — ReadBack

Whatever the options, the script reader finds in a generated file the enums it was rendered from
and their names in its export (`file_render_eq`), and no line of the file holds a line break.

Options change only what stands between the words: `blockStyle` and `inlineStyle` are the two ways
a list is set out, and in both of them the blanks are ones that the reader skips.
-/

namespace SchemaEnums.Layout
open Text Text.Reader Enums

variable {o : Options}

/-! ### Blanks of a layout -/

theorem Options.endOfLine_blank (o : Options) :
    ∀ x ∈ o.endOfLine.text.toList, isBlank x = true := by
  cases o.endOfLine <;> exact List.all_eq_true.mp (by decide)

theorem Options.indent_blank (o : Options) : ∀ x ∈ o.indent.toList, isBlank x = true := by
  intro x hx
  rw [Options.indent] at hx
  split at hx
  case isTrue =>
    obtain rfl : x = '\t' := by simpa using hx
    decide
  case isFalse =>
    rw [String.toList_ofList] at hx
    obtain rfl := List.eq_of_mem_replicate hx
    decide

theorem Options.padding_blank (o : Options) : ∀ x ∈ o.padding.toList, isBlank x = true := by
  rw [Options.padding]
  split <;> exact List.all_eq_true.mp (by decide)

/-! ### Lists of a layout -/

/-- One item on each line. -/
def blockStyle (o : Options) : ListStyle where
  opening := '{'
  closing := '}'
  lead    := o.endOfLine.text.toList ++ o.indent.toList
  sep     := o.endOfLine.text.toList ++ o.indent.toList
  trail   := o.endOfLine.text.toList
  comma   := o.trailingComma != .none

/-- All items on one line. -/
def inlineStyle (o : Options) : ListStyle where
  opening := '{'
  closing := '}'
  lead    := o.padding.toList
  sep     := [' ']
  trail   := o.padding.toList
  comma   := false

theorem blockStyle_fits (o : Options) : (blockStyle o).Fits Script.skip Script.opensBlank where
  stay    := Script.skip_skips (by simp)
  lead    := Script.skip_skips (List.forall_mem_append.mpr ⟨o.endOfLine_blank, o.indent_blank⟩)
  sep     := Script.skip_skips (List.forall_mem_append.mpr ⟨o.endOfLine_blank, o.indent_blank⟩)
  trail   := Script.skip_skips o.endOfLine_blank
  comma   := by decide
  closing := show Script.opensBlank '}' = false by decide
  ne      := show '}' ≠ ',' by decide

theorem inlineStyle_fits (o : Options) : (inlineStyle o).Fits Script.skip Script.opensBlank where
  stay    := Script.skip_skips (by simp)
  lead    := Script.skip_skips o.padding_blank
  sep     := Script.skip_skips Script.space_blank
  trail   := Script.skip_skips o.padding_blank
  comma   := by decide
  closing := show Script.opensBlank '}' = false by decide
  ne      := show '}' ≠ ',' by decide

/-! ### The text of a layout -/

/-- Lines, each with the end that the options give it. -/
def linesText (o : Options) (ls : List String) : List Char :=
  ls.flatMap fun l => l.toList ++ o.endOfLine.text.toList

theorem render_toList (o : Options) (f : EnumFile) :
    (render o f).toList = linesText o (fileLines o f) := by
  simp [render, linesText, String.toList_join, List.flatMap_map]

theorem trailingComma_toList (o : Options) :
    o.trailingComma.text.toList = if (blockStyle o).comma then [','] else [] := by
  show _ = if o.trailingComma != .none then [','] else []
  cases o.trailingComma <;> decide

theorem linesText_itemLines (o : Options) (i : String) (is : List String) :
    linesText o (itemLines o.indent o.trailingComma.text (i :: is)) =
      o.indent.toList ++ i.toList ++
        is.flatMap (fun j => ',' :: ((blockStyle o).sep ++ j.toList)) ++
        (if (blockStyle o).comma then [','] else []) ++ (blockStyle o).trail := by
  rw [← trailingComma_toList]
  induction is generalizing i with
  | nil => simp [linesText, itemLines, blockStyle]
  | cons j is ih =>
      have hcons : linesText o (itemLines o.indent o.trailingComma.text (i :: j :: is)) =
          (o.indent ++ i ++ ",").toList ++ o.endOfLine.text.toList ++
            linesText o (itemLines o.indent o.trailingComma.text (j :: is)) := by
        simp [linesText, itemLines]
      rw [hcons, ih]
      simp [blockStyle]

/-- Items between braces, one on each line. -/
theorem linesText_block (o : Options) (head tail : String) (items : List String)
    (h : items ≠ []) :
    linesText o ([head ++ " \x7b"] ++ itemLines o.indent o.trailingComma.text items ++
        ["\x7d" ++ tail]) =
      head.toList ++ ' ' :: ((blockStyle o).text (items.map String.toList) ++
        (tail.toList ++ o.endOfLine.text.toList)) := by
  cases items with
  | nil => exact absurd rfl h
  | cons i is =>
      have hsplit : linesText o ([head ++ " \x7b"] ++
          itemLines o.indent o.trailingComma.text (i :: is) ++ ["\x7d" ++ tail]) =
          (head ++ " \x7b").toList ++ o.endOfLine.text.toList ++
            linesText o (itemLines o.indent o.trailingComma.text (i :: is)) ++
            (("\x7d" ++ tail).toList ++ o.endOfLine.text.toList) := by
        simp [linesText]
      rw [hsplit, linesText_itemLines]
      simp [ListStyle.text, ListStyle.tail, blockStyle, List.flatMap_map]

/-- An enum of the file, without the end of its last line. -/
def declarationText (o : Options) (d : Declaration) : List Char :=
  "enum".toList ++ ' ' :: (d.name.toList ++
    ' ' :: (blockStyle o).text (d.members.map fun m => (memberText o m).toList))

theorem linesText_declaration (o : Options) (d : Declaration) :
    linesText o (declarationLines o d) = declarationText o d ++ o.endOfLine.text.toList := by
  obtain ⟨name, members⟩ := d
  cases members with
  | nil => simp [declarationLines, declarationText, linesText, ListStyle.text, blockStyle]
  | cons m ms =>
      have h := linesText_block o ("enum " ++ name) "" ((m :: ms).map (memberText o)) (by simp)
      rw [List.map_map, String.append_empty] at h
      exact h.trans (by simp [declarationText, Function.comp_def])

/-- How the names of the export are set out. -/
def exportStyle (o : Options) (names : List String) : ListStyle :=
  if (exportLine o names).length ≤ o.printWidth then inlineStyle o else blockStyle o

theorem linesText_export (o : Options) (names : List String) :
    linesText o (exportLines o names) =
      "export".toList ++ ' ' :: ((exportStyle o names).text (names.map String.toList) ++
        (o.semicolon.toList ++ o.endOfLine.text.toList)) := by
  cases names with
  | nil =>
      rw [exportStyle]
      split <;> simp [exportLines, linesText, ListStyle.text, blockStyle, inlineStyle]
  | cons n ns =>
      rw [exportLines, exportStyle]
      · split
        case isTrue =>
          simp [linesText, exportLine, ListStyle.text, ListStyle.tail, inlineStyle,
            String.toList_intercalate, intercalate_cons, List.flatMap_map]
        case isFalse => exact linesText_block o "export" o.semicolon _ (by simp)
      · simp

theorem linesText_file (o : Options) (f : EnumFile) :
    linesText o (fileLines o f) =
      banner.toList ++ (o.endOfLine.text.toList ++ o.endOfLine.text.toList) ++
      (f.declarations.flatMap (fun d => declarationText o d ++
        (o.endOfLine.text.toList ++ o.endOfLine.text.toList)) ++
        linesText o (exportLines o f.exports)) := by
  have hdeclarations : linesText o (f.declarations.flatMap fun d => declarationLines o d ++ [""]) =
      f.declarations.flatMap fun d => declarationText o d ++
        (o.endOfLine.text.toList ++ o.endOfLine.text.toList) := by
    rw [linesText, List.flatMap_assoc]
    congr 1
    funext d
    have := linesText_declaration o d
    rw [linesText] at this
    rw [List.flatMap_append, this]
    simp
  rw [← hdeclarations]
  simp [fileLines, linesText]

/-! ### Reading -/

theorem isWord_enum : Script.IsWord "enum".toList := by decide

theorem isWord_export : Script.IsWord "export".toList := by decide

/-- No blank begins a member. -/
theorem memberText_clear (o : Options) {m : Member} (h : Script.IsWord m.identifier.toList) :
    (memberText o m).toList ≠ [] ∧ Stops Script.opensBlank (memberText o m).toList := by
  rw [memberText, String.append_assoc, String.toList_append]
  exact ⟨List.append_ne_nil_of_left_ne_nil h.1 _, h.stops.append_of_ne_nil _ h.1⟩

theorem member_takes (o : Options) {m : Member} (h : Script.IsWord m.identifier.toList)
    (rest : List Char) : Takes Script.member (memberText o m).toList rest (fun a => a = m) := by
  obtain ⟨identifier, value⟩ := m
  intro c hc
  have hc₁ : c.rest = identifier.toList ++ ([' '] ++ (['='] ++ ([' '] ++
      ((Quote.literal o.singleQuote value).toList ++ rest)))) := by simpa [memberText] using hc
  obtain ⟨i, hi, hin⟩ := Script.word_takes h (.cons rfl) c hc₁
  obtain rfl := String.toList_injective hin
  have hc₂ := Cursor.rest_advance_length hc₁
  have h₁ := Script.skip_skips Script.space_blank _ _ hc₂
    (.cons rfl)
  have hc₃ := Cursor.rest_advance_length hc₂
  have hc₄ := Cursor.rest_advance_length hc₃
  have h₂ := Script.skip_skips Script.space_blank _ _ hc₄ (by
    rw [Quote.literal, String.toList_ofList, List.cons_append, List.cons_append, stops_cons]
    rcases Quote.delimiter_cases o.singleQuote value.toList with h | h <;> rw [h] <;> rfl)
  obtain ⟨v, hv, rfl⟩ := Script.literal_takes o.singleQuote value rest _
    (Cursor.rest_advance_length hc₄)
  refine ⟨_, ?_, rfl⟩
  simp only [Script.member, hi, h₁, Cursor.eat?_eq hc₃, h₂, hv, Option.bind_eq_bind,
    Option.bind_some]
  simp only [Cursor.advance_advance, memberText, String.toList_append, List.length_append,
    List.length_cons, List.length_nil]
  congr 3

/-- Behind the last item of a list no word goes on. -/
theorem tail_stops {s : ListStyle} (hclosing : s.closing = '}')
    (htrail : ∀ x ∈ s.trail, isBlank x = true) (rest : List Char) :
    Stops Script.isWordChar (s.tail ++ rest) := by
  have hblank : Stops Script.isWordChar (s.trail ++ '}' :: rest) := by
    cases ht : s.trail with
    | nil => rw [List.nil_append, stops_cons]; rfl
    | cons x t =>
        rw [List.cons_append, stops_cons]
        by_contra hx
        have := Script.opensBlank_of_isWordChar (by simpa using hx)
        rw [Script.opensBlank, htrail x (by rw [ht]; simp)] at this
        cases this
  rw [ListStyle.tail, hclosing]
  cases s.comma with
  | true => rw [if_pos rfl, List.append_assoc, List.append_assoc, List.cons_append, stops_cons]; rfl
  | false => simpa using hblank

theorem declaration_takes (o : Options) {d : Declaration} (h : Script.IsWord d.name.toList)
    (hm : ∀ m ∈ d.members, Script.IsWord m.identifier.toList) (rest : List Char) :
    Takes Script.declaration (declarationText o d) rest (fun a => a = d) := by
  obtain ⟨name, members⟩ := d
  intro c hc
  have hc₁ : c.rest = "enum".toList ++ ([' '] ++ (name.toList ++ ([' '] ++
      ((blockStyle o).text (members.map fun m => (memberText o m).toList) ++ rest)))) := by
    simpa [declarationText] using hc
  obtain ⟨tail, htail⟩ := (blockStyle o).text_eq_cons (members.map fun m => (memberText o m).toList)
  obtain ⟨⟨⟩, hk, -⟩ := Script.keyword_takes (k := "enum") isWord_enum
    (.cons rfl) c hc₁
  have hc₂ := Cursor.rest_advance_length hc₁
  have h₁ := Script.skip_skips Script.space_blank _ _ hc₂
    (h.stops.append_of_ne_nil _ h.1)
  have hc₃ := Cursor.rest_advance_length hc₂
  obtain ⟨n, hn, hname⟩ := Script.word_takes h (.cons rfl) _ hc₃
  obtain rfl := String.toList_injective hname
  have hc₄ := Cursor.rest_advance_length hc₃
  have h₂ := Script.skip_skips Script.space_blank _ _ hc₄
    (by rw [htail]; exact .cons rfl)
  -- the members are set out in the style of blocks, and none is read in place of the brace
  obtain ⟨ms, hms, hall⟩ := listed_takes (blockStyle_fits o) Script.member
    (fun m => (memberText o m).toList) (q := fun _ => false) (P := fun m a => a = m) rfl
    (fun _ _ => rfl)
    (fun m hmem => memberText_clear o (hm m hmem))
    (fun m hmem after _ => member_takes o (hm m hmem) after)
    (fun c hc => by
      rw [Script.member, Script.word_refuses (.cons rfl) c hc]
      rfl) _ (Cursor.rest_advance_length hc₄)
  obtain rfl : ms = members := by simpa using map_eq_map_of_forall₂ (f := id) (g := id) hall
  refine ⟨_, ?_, rfl⟩
  have hms' : Reader.listed Script.skip '{' '}' Script.member _ = _ := hms
  simp only [Script.declaration, hk, h₁, hn, h₂, hms', Option.bind_eq_bind, Option.bind_some]
  simp only [Cursor.advance_advance, declarationText, List.length_append, List.length_cons,
    List.length_nil]
  congr 3
  omega

theorem exportStyle_fits (o : Options) (names : List String) :
    (exportStyle o names).Fits Script.skip Script.opensBlank := by
  rw [exportStyle]
  split
  case isTrue => exact inlineStyle_fits o
  case isFalse => exact blockStyle_fits o

theorem exportStyle_braces (o : Options) (names : List String) :
    (exportStyle o names).opening = '{' ∧ (exportStyle o names).closing = '}' ∧
      ∀ x ∈ (exportStyle o names).trail, isBlank x = true := by
  rw [exportStyle]
  split
  case isTrue => exact ⟨rfl, rfl, o.padding_blank⟩
  case isFalse => exact ⟨rfl, rfl, o.endOfLine_blank⟩

/-- Behind the export's brace there is at most a semicolon. -/
theorem semicolon_end (o : Options) {c : Cursor}
    (hc : c.rest = o.semicolon.toList ++ o.endOfLine.text.toList) :
    (Script.skip (((Script.skip c).eat? [';']).getD c)).rest = [] := by
  have hend : ∀ c : Cursor, c.rest = o.endOfLine.text.toList → (Script.skip c).rest = [] := by
    intro c hc
    rw [Script.skip_skips o.endOfLine_blank c [] (by rw [hc, List.append_nil]) stops_nil,
      Cursor.rest_advance, hc, List.drop_length]
  rw [Options.semicolon] at hc
  split at hc
  case isTrue =>
    have hc₁ : c.rest = ';' :: o.endOfLine.text.toList := hc
    have h₁ := Script.skip_eq_self (c := c) (by rw [hc₁, stops_cons]; rfl)
    rw [h₁, Cursor.eat?_char hc₁, Option.getD_some]
    exact hend _ (by rw [Cursor.rest_advance, hc₁]; rfl)
  case isFalse =>
    -- the reader looks for a semicolon behind the line ending and finds the end of the text
    have hc₁ : c.rest = o.endOfLine.text.toList := hc
    rw [Cursor.eat?_char_eq_none (by rw [hend c hc₁]; exact stops_nil), Option.getD_none]
    exact hend c hc₁

/-- The export is read up to the end of its last line. -/
theorem exports_eq (o : Options) {names : List String} (h : ∀ n ∈ names, Script.IsWord n.toList)
    {c : Cursor} (hc : c.rest = linesText o (exportLines o names)) :
    ∃ c', Script.exports c = some (names, c') ∧ (Script.skip c').rest = [] := by
  obtain ⟨hopening, hclosing, htrail⟩ := exportStyle_braces o names
  have hc₁ : c.rest = "export".toList ++ ([' '] ++
      ((exportStyle o names).text (names.map String.toList) ++
        (o.semicolon.toList ++ o.endOfLine.text.toList))) := by
    rw [hc, linesText_export]
    simp
  obtain ⟨tail, htail⟩ := (exportStyle o names).text_eq_cons (names.map String.toList)
  obtain ⟨⟨⟩, hk, -⟩ := Script.keyword_takes (k := "export") isWord_export
    (.cons rfl) c hc₁
  have hc₂ := Cursor.rest_advance_length hc₁
  have h₁ := Script.skip_skips Script.space_blank _ _ hc₂
    (by rw [htail, hopening, List.cons_append, stops_cons]; rfl)
  have hc₃ := Cursor.rest_advance_length hc₂
  -- on one line or on several, the names are a list in some style
  obtain ⟨ns, hns, hall⟩ := listed_takes (exportStyle_fits o names) Script.word String.toList
    (q := Script.isWordChar) (P := fun n a => a.toList = n.toList) (by decide)
    (tail_stops hclosing htrail _) (fun n hn => ⟨(h n hn).1, (h n hn).stops⟩)
    (fun n hn after hafter => Script.word_takes (h n hn) hafter)
    (Script.word_refuses (by rw [hclosing, stops_cons]; rfl)) _ hc₃
  obtain rfl : ns = names := by
    have := map_eq_map_of_forall₂ (f := id) (g := id)
      (hall.imp fun _ _ h => String.toList_injective h)
    simpa using this
  have hc₄ := Cursor.rest_advance_length hc₃
  rw [hopening, hclosing] at hns
  simp only [Script.exports, hk, h₁, hns, Option.bind_eq_bind, Option.bind_some]
  refine ⟨_, rfl, ?_⟩
  exact semicolon_end o hc₄

theorem banner_takes (after : List Char) :
    Takes Script.blank banner.toList after (fun _ => True) := by
  have hbanner : banner.toList = '/' :: '*' :: banner.toList.drop 2 := by decide
  rw [hbanner]
  exact Script.blank_takes_comment (by decide) after

theorem declarationText_stops (o : Options) (d : Declaration) (after : List Char) :
    Stops Script.opensBlank (declarationText o d ++ after) := by
  rw [declarationText, List.append_assoc]
  exact isWord_enum.stops.append_of_ne_nil _ isWord_enum.1

theorem linesText_export_stops (o : Options) (names : List String) :
    Stops Script.opensBlank (linesText o (exportLines o names)) := by
  rw [linesText_export]
  exact isWord_export.stops.append_of_ne_nil _ isWord_export.1

/-- An enum and the blanks behind it. -/
theorem spacedDeclaration_takes (o : Options) {d : Declaration} (h : Script.IsWord d.name.toList)
    (hm : ∀ m ∈ d.members, Script.IsWord m.identifier.toList) {b after : List Char}
    (hb : ∀ x ∈ b, isBlank x = true) (hafter : Stops Script.opensBlank after) :
    Takes (fun c => (Script.declaration c).map fun (d, c) => (d, Script.skip c))
      (declarationText o d ++ b) after (fun a => a = d) := by
  intro c hc
  rw [List.append_assoc] at hc
  obtain ⟨a, ha, rfl⟩ := declaration_takes o h hm _ c hc
  have h₁ := Script.skip_skips hb _ _ (Cursor.rest_advance_length hc) hafter
  refine ⟨a, ?_, rfl⟩
  simp only [ha, Option.map_some, h₁, Cursor.advance_advance, List.length_append]

/-- The export is not taken for an enum. -/
theorem spacedDeclaration_refuses (o : Options) (names : List String) :
    Refuses (fun c => (Script.declaration c).map fun (d, c) => (d, Script.skip c))
      (linesText o (exportLines o names)) := by
  intro c hc
  rw [linesText_export] at hc
  have h₁ := Script.keyword_refuses (k := "enum") (w := "export") isWord_export
    (.cons rfl) (by decide) c hc
  simp only [Script.declaration, h₁, Option.bind_eq_bind, Option.bind_none, Option.map_none]

/-- **A file is read back as the enums and names that it was rendered from.** -/
theorem file_render_eq (o : Options) {f : EnumFile} (h : EnumFile.Plain f) :
    Script.file (render o f) = some (f.declarations, f.exports) := by
  let c₀ := Cursor.ofText (render o f).toList
  let eols := o.endOfLine.text.toList ++ o.endOfLine.text.toList
  have heols : ∀ x ∈ eols, isBlank x = true :=
    List.forall_mem_append.mpr ⟨o.endOfLine_blank, o.endOfLine_blank⟩
  have hc₀ : c₀.rest = banner.toList ++ eols ++
      (f.declarations.flatMap (fun d => declarationText o d ++ eols) ++
        linesText o (exportLines o f.exports)) :=
    (render_toList o f).trans (linesText_file o f)
  have hexport := linesText_export_stops o f.exports
  -- the first blank is the banner with the two line ends behind it
  have hstart := Script.skip_skips_flatten (banner.toList :: eols.map fun x => [x]) (by
    refine List.forall_mem_cons.mpr ⟨⟨by decide, banner_takes⟩, fun p hp => ?_⟩
    obtain ⟨x, hx, rfl⟩ := List.mem_map.mp hp
    exact ⟨List.cons_ne_nil x [], Script.blank_takes_char (heols x hx)⟩)
  rw [List.flatten_cons, ← List.flatMap_def, List.flatMap_singleton'] at hstart
  have h₁ := hstart c₀ _ hc₀ (by
    cases f.declarations with
    | nil => exact hexport
    | cons d ds =>
        rw [List.flatMap_cons, List.append_assoc, List.append_assoc]
        exact declarationText_stops o d _)
  have hc₁ := Cursor.rest_advance_length hc₀
  -- enums are read until the export is reached, which is not taken for one
  obtain ⟨ds, hds, hall⟩ := many_takes id
    (fun c => (Script.declaration c).map fun (d, c) => (d, Script.skip c))
    (fun d => declarationText o d ++ eols) (P := fun d a => a = d) hexport
    (spacedDeclaration_refuses o f.exports) (fun d _ => by simp [declarationText])
    (fun d hd after hafter => ⟨by
        rw [List.append_assoc]
        exact declarationText_stops o d _,
      spacedDeclaration_takes o (h d hd).1 (h d hd).2 heols hafter⟩) hc₁
  obtain rfl : ds = f.declarations := by simpa using map_eq_map_of_forall₂ (f := id) (g := id) hall
  obtain ⟨c', hc', hend⟩ := exports_eq o (fun n hn => by
    obtain ⟨d, hd, rfl⟩ := List.mem_map.mp hn
    exact (h d hd).1) (Cursor.rest_advance_length hc₁)
  simp only [Script.file, show Cursor.ofText (render o f).toList = c₀ from rfl, h₁, hds, hc', hend,
    Option.bind_eq_bind, Option.bind_some, List.isEmpty_nil, if_true]

/-- **A generated file can be read back**, whatever the options and the values. -/
theorem render_reads_back (o : Options) (f : EnumFile) (h : EnumFile.Plain f) :
    Script.file (render o f) = some (f.declarations, f.exports) ∧
      ∀ l ∈ fileLines o f, OneLine l :=
  ⟨file_render_eq o h, oneLine_fileLines o h⟩

theorem render_reads_back_quotes :
    let o : Options := { Options.default with printWidth := 0, endOfLine := .crlf }
    let f : EnumFile := ⟨[⟨"AEnum", [⟨"a", "\" */\n\x7d"⟩, ⟨"b", "\\"⟩]⟩, ⟨"BEnum", []⟩]⟩
    EnumFile.Plain f ∧ Script.file (render o f) = some (f.declarations, ["AEnum", "BEnum"]) ∧
      ∀ l ∈ fileLines o f, OneLine l := by
  intro o f
  have h : EnumFile.Plain f := by decide
  exact ⟨h, render_reads_back o f h⟩

end SchemaEnums.Layout
