import SchemaEnums.Proofs.Schema.Exact

/-!
# Schema — RoundTrip

Reading undoes printing.  A schema is read off the texts that spell it and no others
(`Document.parse_eq_ok_iff`), so nothing here is about readers: what is spelled is well-formed
(`SpelledBlocks.wellFormed`), and the canonical text of what is well-formed spells it wherever it
stands, up to the places of its names (`spelledBlocks_text`).
-/

namespace SchemaEnums.Schema
open Text Text.Reader Grammar Literal

variable {α β : Type}

/-! ### What is spelled is well-formed -/

theorem Labelled.isName {n : Option String} {t : List Char} (h : Labelled n t) :
    ∀ m ∈ n, IsName m.toList := by
  cases h with
  | none => simp
  | some hn _ _ => simpa using hn

theorem Expression.Spelled.wellFormed {e : Expression} {t : List Char} (h : e.Spelled t) :
    e.WellFormed := by
  induction h with
  | string _ _ => exact .string _
  | number h => exact .number h
  | constant h => exact .constant h
  | call hpath _ labels _ _ ih =>
      exact .call hpath (List.forall_mem_map.mpr fun i hi => (labels i hi).isName)
        (List.forall_mem_map.mpr ih)
  | array _ _ ih => exact .array (List.forall_mem_map.mpr ih)

theorem Attribute.Spelled.wellFormed {a : Attribute} {t : List Char} (h : a.Spelled t) :
    a.WellFormed := by
  cases h with
  | bare hname => exact ⟨hname, by simp⟩
  | listed hname hitems _ =>
      exact ⟨hname, List.forall_mem_map.mpr fun i hi =>
        ⟨(hitems i hi).label.isName, (hitems i hi).value.wellFormed⟩⟩

theorem SpelledAttributes.wellFormed {as : List Attribute} {t : List Char}
    (h : SpelledAttributes as t) : ∀ a ∈ as, a.WellFormed := by
  induction h with
  | nil => simp
  | cons _ ha _ ih => exact List.forall_mem_cons.mpr ⟨ha.wellFormed, ih⟩

theorem SpelledType.wellFormed {p : Position} {i : Identifier} {t : List Char}
    (h : SpelledType p i t) : i.WellFormed := by
  cases h with
  | name h => exact h.name
  | unsupported _ => exact (by decide : IsName "Unsupported".toList)

theorem Field.Spelled.wellFormed {p : Position} {f : Field} {t : List Char}
    (h : f.Spelled p t) : f.WellFormed := by
  cases h with
  | mk hname _ _ htype _ has => exact ⟨hname.name, htype.wellFormed, has.wellFormed⟩

theorem EnumValue.Spelled.wellFormed {p : Position} {v : EnumValue} {t : List Char}
    (h : v.Spelled p t) : v.WellFormed := by
  cases h with
  | mk hname has => exact ⟨hname.name, has.wellFormed⟩

theorem Setting.Spelled.wellFormed {p : Position} {s : Setting} {t : List Char}
    (h : s.Spelled p t) : s.WellFormed := by
  cases h with
  | mk hkey _ _ hvalue => exact ⟨hkey.name, hvalue.wellFormed⟩

/-- What all spelled items have, the items of a block have. -/
theorem SpelledLines.forall_items {S : Position → α → List Char → Prop} {P : α → Prop}
    (hS : ∀ ⦃p a t⦄, S p a t → P a) {p : Position} {as : List α} {t : List Char}
    (h : SpelledLines S p as t) : ∀ a ∈ as, P a := by
  induction h with
  | close _ => simp
  | last _ ha _ => simpa using hS ha
  | blank _ _ _ ih => exact ih
  | item _ ha _ _ _ ih => exact List.forall_mem_cons.mpr ⟨hS ha, ih⟩

theorem Grammar.Line.Spelled.all {S : Position → α → List Char → Prop} {P : α → Prop}
    (hS : ∀ ⦃p a t⦄, S p a t → P a) ⦃p : Position⦄ ⦃l : Line α⦄ ⦃t : List Char⦄
    (h : Line.Spelled S p l t) : l.All P := by
  cases h with
  | item h => exact hS h
  | blockAttribute h => exact h.wellFormed

theorem Block.SpelledBody.wellFormed {p : Position} {b : Block} {t : List Char}
    (h : b.SpelledBody p t) (hname : b.name.WellFormed) : b.WellFormed := by
  cases h with
  | model h =>
      have hall := h.forall_items (Line.Spelled.all @Field.Spelled.wellFormed)
      exact ⟨hname, Line.All.items hall, Line.All.attributes hall⟩
  | enum h =>
      have hall := h.forall_items (Line.Spelled.all @EnumValue.Spelled.wellFormed)
      exact ⟨hname, Line.All.items hall, Line.All.attributes hall⟩
  | config h => exact ⟨hname, h.forall_items @Setting.Spelled.wellFormed⟩

theorem SpelledBlocks.wellFormed {p : Position} {bs : List Block} {t : List Char}
    (h : SpelledBlocks p bs t) : ∀ b ∈ bs, b.WellFormed := by
  induction h with
  | nil _ => simp
  | line _ _ _ ih => exact ih
  | block _ hb _ ih =>
      cases hb with
      | mk _ _ hname _ hbody => exact List.forall_mem_cons.mpr ⟨hbody.wellFormed hname.name, ih⟩

/-- **What is read is well-formed.** -/
theorem Document.wellFormed_of_parse {text : String} {d : Document}
    (h : Document.parse text = .ok d) : d.WellFormed :=
  SpelledBlocks.wellFormed (Document.parse_eq_ok_iff.mp h)

/-! ### The text of a value spells it -/

theorem isSpaces_space : IsSpaces [' '] := by simp [IsSpaces, isSpace]

theorem listTail_tailText (closing : Char) (ts : List (List Char)) :
    ListTail closing ts (tailText closing ts) := by
  induction ts with
  | nil => exact .close (g := []) (.spaces isSpaces_nil)
  | cons t ts ih =>
      simpa [tailText] using ListTail.item (g := []) (t := t) (.spaces isSpaces_nil)
        (.spaces isSpaces_space) ih

/-- A list in brackets is set out with a space behind each comma. -/
theorem listed_bracketStyle (opening closing : Char) (ts : List (List Char)) :
    Listed opening closing ts ((bracketStyle opening closing).text ts) := by
  cases ts with
  | nil => exact .empty (g := []) (.spaces isSpaces_nil)
  | cons t ts =>
      rw [bracketStyle_text_cons]
      exact .items (g := []) (.spaces isSpaces_nil) (listTail_tailText closing ts)

/-- The argument with the texts that it is printed as. -/
def Argument.printed (a : Argument) : ArgumentText where
  argument := a
  label    := a.name.elim [] fun n => n.toList ++ [':', ' ']
  value    := a.value.text

theorem Argument.printed_text (a : Argument) : a.printed.text = a.text := by
  obtain ⟨name, value⟩ := a
  cases name with
  | none => rfl
  | some n =>
      simp [Argument.printed, ArgumentText.text, Argument.text, Argument.name, Argument.value]

theorem Argument.map_printed (as : List Argument) :
    (as.map Argument.printed).map ArgumentText.argument = as := by
  rw [List.map_map]
  exact List.map_id as

/-- The arguments of a call or an attribute are set out between parentheses. -/
theorem Argument.listed_printed (as : List Argument) :
    Listed '(' ')' ((as.map Argument.printed).map ArgumentText.text)
      ((bracketStyle '(' ')').text (as.map Argument.text)) := by
  simp only [List.map_map, Function.comp_def, Argument.printed_text]
  exact listed_bracketStyle '(' ')' _

theorem Argument.printed_label {a : Argument} (h : ∀ n ∈ a.name, IsName n.toList) :
    Labelled a.name a.printed.label := by
  obtain ⟨name, value⟩ := a
  cases name with
  | none => exact .none
  | some n => exact .some (s := []) (h n rfl) isSpaces_nil isSpaces_space

theorem Expression.WellFormed.spelled {e : Expression} (h : e.WellFormed) : e.Spelled e.text := by
  induction h with
  | string s => exact .string (isBody_escape _) (decode_escape _)
  | number h => exact .number h
  | constant h => exact .constant h
  | @call path as h names values ih =>
      rw [Expression.text, Argument.texts_eq]
      have h := Expression.Spelled.call (s := []) h isSpaces_nil
        (List.forall_mem_map.mpr fun a ha => Argument.printed_label (names a ha))
        (List.forall_mem_map.mpr ih) (Argument.listed_printed as)
      simpa only [Argument.map_printed, List.nil_append] using h
  | @array es values ih =>
      rw [Expression.text, Expression.texts_eq]
      have h := @Expression.Spelled.array _ (es.map fun e => (e, e.text))
        (List.forall_mem_map.mpr ih)
        (by simpa [Function.comp_def] using listed_bracketStyle '[' ']' (es.map Expression.text))
      simpa [Function.comp_def] using h

theorem Attribute.WellFormed.spelled {a : Attribute} (h : a.WellFormed) : a.Spelled a.text := by
  obtain ⟨name, as⟩ := a
  cases as with
  | nil => simpa [Attribute.text] using Attribute.Spelled.bare h.name
  | cons x xs =>
      have hlisted := Attribute.Spelled.listed h.name
        (List.forall_mem_map.mpr fun a ha =>
          ⟨Argument.printed_label (h.arguments a ha).1, (h.arguments a ha).2.spelled⟩)
        (Argument.listed_printed (x :: xs))
      rw [Argument.map_printed] at hlisted
      exact hlisted

theorem spelledAttributes_text {as : List Attribute} (h : ∀ a ∈ as, a.WellFormed) :
    SpelledAttributes as (attributesText as) := by
  induction as with
  | nil => exact .nil
  | cons a as ih =>
      obtain ⟨ha, has⟩ := List.forall_mem_cons.mp h
      exact .cons isSpaces_space ha.spelled (ih has)

theorem Arity.spelled_text (ar : Arity) : ar.Spelled ar.text := by
  cases ar with
  | required => exact .required
  | optional => exact .optional (s := []) isSpaces_nil
  | list => simpa [Arity.text] using Arity.Spelled.list isSpaces_nil isSpaces_nil

/-! ### The text of a line spells it -/

/-- Wherever the text stands it spells what is `a` but for the places of its names. -/
def SpelledAnywhere (S : Position → α → List Char → Prop) (f : α → β) (a : α) (t : List Char) :
    Prop :=
  ∀ p, ∃ a', f a' = f a ∧ S p a' t

/-- The name as it stands at a place. -/
def Identifier.placed (i : Identifier) (p : Position) : Identifier := { i with position := p }

theorem Identifier.WellFormed.placed {i : Identifier} (h : i.WellFormed) (p : Position) :
    (i.placed p).At p := ⟨h, rfl⟩

theorem Field.WellFormed.spelled {f : Field} (h : f.WellFormed) :
    SpelledAnywhere Field.Spelled Field.unplaced f f.text := by
  intro p
  let q := p.afterAll (f.name.name.toList ++ [' '])
  refine ⟨⟨f.name.placed p, f.type.placed q, f.arity, f.attributes⟩, rfl, ?_⟩
  exact .mk (h.name.placed p) isSpaces_space (List.cons_ne_nil _ _) (.name (h.type.placed q))
    f.arity.spelled_text (spelledAttributes_text h.attributes)

theorem EnumValue.WellFormed.spelled {v : EnumValue} (h : v.WellFormed) :
    SpelledAnywhere EnumValue.Spelled EnumValue.unplaced v v.text := fun p =>
  ⟨⟨v.name.placed p, v.attributes⟩, rfl,
    .mk (h.name.placed p) (spelledAttributes_text h.attributes)⟩

theorem Setting.WellFormed.spelled {s : Setting} (h : s.WellFormed) :
    SpelledAnywhere Setting.Spelled Setting.unplaced s s.text := fun p =>
  ⟨⟨s.key.placed p, s.value⟩, rfl,
    .mk (h.key.placed p) isSpaces_space isSpaces_space h.value.spelled⟩

/-- A line for each item spells the items. -/
theorem spelledLines_text {S : Position → α → List Char → Prop} {f : α → β}
    {text : α → List Char} {as : List α} (h : ∀ a ∈ as, SpelledAnywhere S f a (text a)) :
    SpelledAnywhere (SpelledLines S) (List.map f) as (linesText (as.map text)) := by
  induction as with
  | nil => exact fun p => ⟨[], rfl, .close isSpaces_nil⟩
  | cons a as ih =>
      intro p
      obtain ⟨ha, has⟩ := List.forall_mem_cons.mp h
      have hindent : IsSpaces [' ', ' '] := by simp [IsSpaces, isSpace]
      obtain ⟨a', hfa, ha'⟩ := ha (p.afterAll [' ', ' '])
      obtain ⟨as', hfas, has'⟩ := ih has _
      refine ⟨a' :: as', by rw [List.map_cons, hfa, hfas, List.map_cons], ?_⟩
      simpa [linesText] using SpelledLines.item hindent ha' (.spaces isSpaces_nil) rfl has'

/-- The lines of a block with attributes of its own, behind its opening brace. -/
theorem spelledBody_text {S : Position → α → List Char → Prop} {f : α → α}
    {text : α → List Char} {is : List α} {as : List Attribute}
    (his : ∀ i ∈ is, SpelledAnywhere S f i (text i)) (has : ∀ a ∈ as, a.WellFormed) (p : Position) :
    ∃ ls, (Line.items ls).map f = is.map f ∧ Line.attributes ls = as ∧
      SpelledLines (Line.Spelled S) p ls
        ('\n' :: linesText ((Line.of is as).map (Line.text text))) := by
  have hline : ∀ l ∈ Line.of is as,
      SpelledAnywhere (Line.Spelled S) (Line.map f) l (Line.text text l) := by
    intro l hl p
    rcases List.mem_append.mp hl with hl | hl
    · obtain ⟨i, hi, rfl⟩ := List.mem_map.mp hl
      obtain ⟨i', hf, hi'⟩ := his i hi p
      exact ⟨.item i', congrArg Line.item hf, .item hi'⟩
    · obtain ⟨a, ha, rfl⟩ := List.mem_map.mp hl
      exact ⟨.blockAttribute a, rfl, .blockAttribute (has a ha).spelled⟩
  obtain ⟨ls, hls, hspelled⟩ := spelledLines_text hline (p.afterAll ['\n'])
  refine ⟨ls, ?_, ?_, .blank (s := []) (.spaces isSpaces_nil) rfl hspelled⟩
  · rw [← Line.items_map, hls, Line.items_map, Line.items_of]
  · rw [← Line.attributes_map f, hls, Line.attributes_map, Line.attributes_of]

/-! ### The text of a schema spells it -/

/-- Between the braces a printed block spells itself, under whatever name and at whatever place. -/
theorem Block.WellFormed.spelledBody {b : Block} (h : b.WellFormed) {n : Identifier}
    (hn : n.unplaced = b.name.unplaced) (p : Position) :
    ∃ b', b'.name = n ∧ b'.keyword = b.keyword ∧ b'.unplaced = b.unplaced ∧
      Block.SpelledBody p b' ('\n' :: linesText b.lines) := by
  cases b with
  | model b =>
      obtain ⟨-, hfields, hattributes⟩ := h
      obtain ⟨ls, hitems, has, hls⟩ :=
        spelledBody_text (fun f hf => (hfields f hf).spelled) hattributes p
      exact ⟨.model ⟨b.kind, n, Line.items ls, Line.attributes ls⟩, rfl, rfl,
        by rw [Block.unplaced, hitems, has, hn]; rfl, .model hls⟩
  | enum b =>
      obtain ⟨-, hvalues, hattributes⟩ := h
      obtain ⟨ls, hitems, has, hls⟩ :=
        spelledBody_text (fun v hv => (hvalues v hv).spelled) hattributes p
      exact ⟨.enum ⟨n, Line.items ls, Line.attributes ls⟩, rfl, rfl,
        by rw [Block.unplaced, hitems, has, hn]; rfl, .enum hls⟩
  | config b =>
      obtain ⟨-, hsettings⟩ := h
      obtain ⟨ss, hss, hspelled⟩ :=
        spelledLines_text (fun s hs => (hsettings s hs).spelled) (p.afterAll ['\n'])
      exact ⟨.config ⟨b.kind, n, ss⟩, rfl, rfl, by rw [Block.unplaced, hss, hn]; rfl,
        .config (.blank (s := []) (.spaces isSpaces_nil) rfl hspelled)⟩

theorem Block.head_eq (b : Block) :
    b.head = headText b.keyword.word [' '] b.name.name [' '] := by
  simp [Block.head, headText]

theorem Block.WellFormed.spelled {b : Block} (h : b.WellFormed) :
    SpelledAnywhere Block.Spelled Block.unplaced b (b.head ++ b.bodyText) := by
  intro p
  let n := b.name.placed (p.afterAll (b.keyword.word.toList ++ [' ']))
  have hname : b.name.WellFormed := by cases b <;> exact h.1
  obtain ⟨b', hn, hkeyword, hsame, hbody⟩ := h.spelledBody (n := n) rfl (p.afterAll b.head)
  refine ⟨b', hsame, ?_⟩
  rw [Block.head_eq] at hbody ⊢
  have hspelled := Block.Spelled.mk (b := b') (p := p) isSpaces_space (List.cons_ne_nil _ _)
    (by rw [hn, hkeyword]; exact hname.placed _) isSpaces_space (by rw [hn, hkeyword]; exact hbody)
  rw [hn, hkeyword] at hspelled
  exact hspelled

/-- **What is printed spells what it was printed from**, up to the places of the names. -/
theorem spelledBlocks_text {bs : List Block} (h : ∀ b ∈ bs, b.WellFormed) :
    SpelledAnywhere SpelledBlocks (List.map Block.unplaced) bs (bs.flatMap Block.text) := by
  induction bs with
  | nil => exact fun p => ⟨[], rfl, .nil (.spaces isSpaces_nil)⟩
  | cons b bs ih =>
      intro p
      obtain ⟨hb, hbs⟩ := List.forall_mem_cons.mp h
      obtain ⟨b', hsame, hb'⟩ := hb.spelled p
      obtain ⟨bs', hmap, hbs'⟩ := ih hbs ((p.afterAll (b.head ++ b.bodyText)).afterAll ['\n'])
      refine ⟨b' :: bs', by rw [List.map_cons, hsame, hmap, List.map_cons], ?_⟩
      -- behind the block stands the line break that ends its text
      have hline := SpelledBlocks.line (s := []) (.spaces isSpaces_nil) rfl hbs'
      simpa [Block.text_eq] using SpelledBlocks.block isSpaces_nil hb' hline

/-- **What is printed is read as it was.** -/
theorem Document.parse_print {d : Document} (h : d.WellFormed) :
    ∃ d', Document.parse d.print = .ok d' ∧ d'.unplaced = d.unplaced := by
  obtain ⟨bs, hmap, hbs⟩ := spelledBlocks_text h .start
  refine ⟨⟨bs⟩, Document.parse_eq_ok_iff.mpr ?_, congrArg Document.mk hmap⟩
  rw [Document.Spelled, Document.print, String.toList_ofList, hbs.withoutMark_eq]
  exact hbs

/-- **Reading undoes printing.**  A well-formed schema is read back from its canonical text, and
what any text is read as is well-formed. -/
theorem Document.parse_undoes_print :
    (∀ d : Document, d.WellFormed →
      ∃ d', Document.parse d.print = .ok d' ∧ d'.unplaced = d.unplaced) ∧
    ∀ (text : String) (d : Document), Document.parse text = .ok d →
      d.WellFormed ∧ ∃ d', Document.parse d.print = .ok d' ∧ d'.unplaced = d.unplaced :=
  ⟨fun _ h => Document.parse_print h, fun _ _ h =>
    ⟨Document.wellFormed_of_parse h, Document.parse_print (Document.wellFormed_of_parse h)⟩⟩

/-- A schema with a call inside an array inside a named argument. -/
def Document.nested : Document where
  blocks := [.model {
    kind       := .model
    name       := ⟨"line-item", .start⟩
    fields     := [{
      name       := ⟨"tags", .start⟩
      type       := ⟨"String", .start⟩
      arity      := .list
      attributes := [⟨"db.default", [.mk (some "map")
        (.array [.call "now" [.mk none (.string "a\"\n")], .number "-1.5"])]⟩] }]
    attributes := [⟨"map", []⟩] }]

theorem Document.nested_wellFormed : Document.nested.WellFormed := by
  have hdb : IsPath "db.default".toList := ⟨"db".toList, ["default".toList], by decide, by decide⟩
  have hnumber : IsNumber "-1.5".toList :=
    ⟨['-'], ['1'], ['.', '5'], by decide, .inr rfl, by decide, .inr ⟨['5'], rfl, by decide⟩⟩
  have hvalue : Expression.WellFormed
      (.array [.call "now" [.mk none (.string "a\"\n")], .number "-1.5"]) := by
    refine .array (List.forall_mem_cons.mpr
      ⟨?_, List.forall_mem_cons.mpr ⟨.number hnumber, by simp⟩⟩)
    exact .call (IsName.isPath (by decide)) (by simp [Argument.name])
      (by simpa [Argument.value] using .string _)
  simp only [Document.WellFormed, Document.nested, List.forall_mem_cons, List.not_mem_nil,
    false_imp_iff, implies_true, and_true]
  refine ⟨show IsName "line-item".toList by decide, ?_, ?_⟩
  · simp only [List.forall_mem_cons, List.not_mem_nil, false_imp_iff, implies_true, and_true]
    refine ⟨show IsName "tags".toList by decide, show IsName "String".toList by decide,
      List.forall_mem_cons.mpr ⟨⟨hdb, ?_⟩, by simp⟩⟩
    exact List.forall_mem_cons.mpr ⟨⟨by rintro n ⟨⟩; decide, hvalue⟩, by simp⟩
  · exact List.forall_mem_cons.mpr ⟨⟨IsName.isPath (by decide), by simp⟩, by simp⟩

theorem Document.parse_undoes_print_nested :
    ∃ d, Document.parse Document.nested.print = .ok d ∧
      d.unplaced = Document.nested.unplaced ∧ d.WellFormed := by
  obtain ⟨d, hd, hunplaced⟩ := Document.parse_undoes_print.1 _ Document.nested_wellFormed
  exact ⟨d, hd, hunplaced, (Document.parse_undoes_print.2 _ d hd).1⟩

end SchemaEnums.Schema
