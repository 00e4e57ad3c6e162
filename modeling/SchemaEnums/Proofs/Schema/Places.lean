import Mathlib.Data.List.Induction
import SchemaEnums.Proofs.Schema.Kept
import SchemaEnums.Proofs.Schema.Verdict
import SchemaEnums.Proofs.Text.Before

/-!
# Schema — Places

Where the names of a schema stand.  Every name that is read, the name of an unsupported type
included, is found in the text at the line and column that it keeps, whole, and the names stand one
behind another in the order of the schema (`places_faithful`).  So an error that names one points at
it.

`Placed p t is` says that the names `is` stand so in the text `t`, which begins at `p`.  A piece of
the text `Places` names if with it those behind it are still so placed; there is one such statement
for each form that holds names.
-/

namespace SchemaEnums.Text

/-! ### Lines and columns -/

/-- What stands behind the last line feed. -/
def lastLine (t : List Char) : List Char := (t.reverse.takeWhile (· != '\n')).reverse

/-- The line and the column behind a text, both counted from one. -/
def Position.behind (t : List Char) : Position := ⟨t.count '\n' + 1, (lastLine t).length + 1⟩

theorem Position.behind_eq (t : List Char) : behind t = start.afterAll t := by
  induction t using List.reverseRecOn with
  | nil => rfl
  | append_singleton t x ih =>
      rw [afterAll_append, ← ih, afterAll_cons, afterAll_nil, after, behind, behind, lastLine,
        lastLine, List.count_append, List.reverse_append]
      by_cases hx : x = '\n'
      · subst hx
        simp
      · simp [hx]

/-- No two places of a text have the same line and column. -/
theorem Position.eq_of_behind {t t' u u' : List Char} (h : t ++ u = t' ++ u')
    (hplace : behind t = behind t') : t = t' := by
  have hsame : ∀ {s v : List Char}, behind s = behind (s ++ v) → v = [] := by
    intro s v hs
    rw [behind_eq, behind_eq, afterAll_append] at hs
    by_contra hv
    exact (lt_afterAll _ hv).ne hs
  rcases List.append_eq_append_iff.mp h with ⟨v, rfl, -⟩ | ⟨v, rfl, -⟩
  · rw [hsame hplace, List.append_nil]
  · rw [hsame hplace.symm, List.append_nil]

end SchemaEnums.Text

namespace SchemaEnums.Schema
open Text Grammar Literal

variable {α : Type}

/-! ### The names of a schema -/

/-- The names between the braces of a block: those of its fields, each with the name of its type, of
its values or of its settings. -/
def Block.innerIdentifiers : Block → List Identifier
  | .model b  => b.fields.flatMap fun f => [f.name, f.type]
  | .enum b   => b.values.map (·.name)
  | .config b => b.settings.map (·.key)

def Block.identifiers (b : Block) : List Identifier := b.name :: b.innerIdentifiers

/-- The names of a schema that keep their places, in the order of its blocks. -/
def Document.identifiers (d : Document) : List Identifier := d.blocks.flatMap Block.identifiers

/-- The name stands in the text at its line and column, and does not go on behind that.  The place
is the only one with the line and column. -/
def Identifier.StandsIn (i : Identifier) (text : List Char) : Prop :=
  ∃ before after, text = before ++ (i.name.toList ++ after) ∧ i.position = .behind before ∧
    Stops isNameChar after ∧
    ∀ s t, text = s ++ t → i.position = .behind s → s = before

/-! ### Names one behind another -/

/-- In the text, which begins at the place, the names stand in this order, each at its place. -/
inductive Placed : Position → List Char → List Identifier → Prop where
  | nil {p : Position} {t : List Char} : Placed p t []
  | cons {p : Position} {front after : List Char} {i : Identifier} {is : List Identifier}
      (hi : i.At (p.afterAll front)) (hstops : Stops isNameChar after)
      (h : Placed (p.afterAll (front ++ i.name.toList)) after is) :
      Placed p (front ++ (i.name.toList ++ after)) (i :: is)

section Placed

variable {p : Position} {s t : List Char} {is : List Identifier}

theorem Placed.behind (h : Placed (p.afterAll s) t is) : Placed p (s ++ t) is := by
  cases h with
  | nil => exact .nil
  | cons hi hstops h =>
      rw [← List.append_assoc]
      rw [← Position.afterAll_append] at hi h
      exact .cons hi hstops (by rwa [List.append_assoc])

theorem Placed.le (h : Placed p t is) : ∀ i ∈ is, p ≤ i.position := by
  induction h with
  | nil => simp
  | cons hi _ _ ih =>
      rw [List.forall_mem_cons, hi.position]
      exact ⟨Position.le_afterAll _ _, fun j hj => (Position.le_afterAll _ _).trans (ih j hj)⟩

/-- Names are not empty, so each stands behind the one before it. -/
theorem Placed.pairwise (h : Placed p t is) : is.Pairwise (·.position < ·.position) := by
  induction h with
  | nil => exact .nil
  | cons hi _ h ih =>
      refine .cons (fun j hj => lt_of_lt_of_le ?_ (h.le j hj)) ih
      rw [hi.position, Position.afterAll_append]
      exact Position.lt_afterAll _ hi.name.ne_nil

theorem Placed.standsIn (h : Placed p t is) : ∀ before, p = .behind before →
    ∀ i ∈ is, i.StandsIn (before ++ t) := by
  induction h with
  | nil => simp
  | @cons p front after i is hi hstops h ih =>
      rintro before rfl
      have hplace : i.position = .behind (before ++ front) := by
        rw [hi.position, Position.behind_eq, Position.behind_eq, Position.afterAll_append]
      refine List.forall_mem_cons.mpr ⟨⟨before ++ front, after, by simp, hplace, hstops,
        fun s t hsplit hs => ?_⟩, ?_⟩
      · have hsame : s ++ t = (before ++ front) ++ (i.name.toList ++ after) := by
          rw [← hsplit, List.append_assoc]
        exact Position.eq_of_behind hsame (hs.symm.trans hplace)
      · have hrest := ih (before ++ (front ++ i.name.toList)) (by
          rw [Position.behind_eq, Position.behind_eq, ← Position.afterAll_append])
        simpa using hrest

end Placed

/-! ### Pieces -/

/-- The piece, which begins at the place, holds the names, and before a text in which names are
placed all of them are, as long as no character of `q` follows the piece. -/
def Places (q : Char → Bool) (p : Position) (t : List Char) (is : List Identifier) : Prop :=
  ∀ after js, Stops q after → Placed (p.afterAll t) after js → Placed p (t ++ after) (is ++ js)

section Pieces

variable {p : Position} {q q' : Char → Bool} {s t u : List Char} {is js : List Identifier}

theorem places_none : Places q p t [] := fun _ _ _ h => h.behind

theorem Identifier.At.places {i : Identifier} (hi : i.At p) :
    Places isNameChar p i.name.toList [i] := by
  intro after js hstops h
  have hfirst : i.At (p.afterAll []) := hi
  exact .cons hfirst hstops h

theorem Places.append (h : Places q p t is) (h' : Places q' (p.afterAll t) u js)
    (hstops : ∀ after, Stops q' after → Stops q (u ++ after)) :
    Places q' p (t ++ u) (is ++ js) := by
  intro after ks hafter hplaced
  rw [Position.afterAll_append] at hplaced
  rw [List.append_assoc, List.append_assoc]
  exact h _ _ (hstops after hafter) (h' _ _ hafter hplaced)

/-- Behind a piece without names. -/
theorem Places.behind (h : Places q (p.afterAll s) u is) : Places q p (s ++ u) is :=
  (places_none (q := noChar)).append h fun _ _ => stops_noChar _

/-- Before a piece without names. -/
theorem Places.before (h : Places q p t is)
    (hstops : ∀ after, Stops q' after → Stops q (u ++ after)) : Places q' p (t ++ u) is := by
  simpa using h.append places_none hstops

end Pieces

/-! ### Lines -/

/-- The name of an unsupported type is the word before its argument. -/
theorem SpelledType.places {p : Position} {i : Identifier} {t : List Char}
    (h : SpelledType p i t) : Places isNameChar p t [i] := by
  cases h with
  | name h => exact h.places
  | unsupported hbody =>
      have hword : Identifier.At ⟨"Unsupported", p⟩ p :=
        ⟨show IsName "Unsupported".toList by decide, rfl⟩
      exact hword.places.before fun _ _ => .cons rfl

theorem Field.Spelled.places {p : Position} {f : Field} {t : List Char} (h : f.Spelled p t) :
    Places extendsPath p t [f.name, f.type] := by
  obtain @⟨name, type, ar, as, s, t, u, v, hname, hs, hne, htype, harity, has⟩ := h
  have hfollows : ∀ x, followsType x = true → isNameChar x = false := fun x hx => by
    by_contra hchar
    have hpath := isNameChar_of_extendsPath (by simpa using hchar : isNameChar x = true)
    rw [extendsPath_of_followsType hx] at hpath
    cases hpath
  have htype' : Places extendsPath (p.afterAll (name.name.toList ++ s)) (t ++ (u ++ v)) [type] :=
    htype.places.before fun after hafter => by
      rw [List.append_assoc]
      exact harity.stops hfollows (has.stops hfollows
        (hafter.mono fun _ => isNameChar_of_extendsPath))
  have hname' : Places noChar p (name.name.toList ++ s) [name] :=
    hname.places.before fun after _ => by
      obtain ⟨x, s, rfl⟩ := List.exists_cons_of_ne_nil hne
      exact .cons (hfollows x (followsType_of_isSpace (hs x (by simp))))
  simpa using hname'.append htype' fun _ _ => stops_noChar _

theorem EnumValue.Spelled.places {p : Position} {v : EnumValue} {t : List Char}
    (h : v.Spelled p t) : Places extendsPath p t [v.name] := by
  obtain ⟨hname, has⟩ := h
  exact hname.places.before fun after hafter =>
    (has.stops (fun _ => extendsPath_of_followsType) hafter).mono
      fun _ => isNameChar_of_extendsPath

theorem Setting.Spelled.places {p : Position} {x : Setting} {t : List Char}
    (h : x.Spelled p t) : Places extendsPath p t [x.key] := by
  obtain ⟨hkey, hs, hs', hvalue⟩ := h
  exact hkey.places.before fun after _ => by
    rw [List.append_assoc]
    exact (hs.stops (fun _ => extendsPath_of_isSpace) (.cons rfl)).mono
      fun _ => isNameChar_of_extendsPath

section Lines

variable {S : Position → α → List Char → Prop} {names : α → List Identifier}

/-- The names of a line. -/
def Grammar.Line.identifiers (names : α → List Identifier) : Line α → List Identifier
  | .item a           => names a
  | .blockAttribute _ => []

theorem Grammar.Line.flatMap_identifiers (names : α → List Identifier) (ls : List (Line α)) :
    ls.flatMap (Line.identifiers names) = (Line.items ls).flatMap names := by
  induction ls with
  | nil => rfl
  | cons l ls ih => cases l <;> simp [Line.identifiers, Line.items, ih]

theorem Grammar.Line.Spelled.places (hS : ∀ p a t, S p a t → Places extendsPath p t (names a))
    {p : Position} {l : Line α} {t : List Char} (h : l.Spelled S p t) :
    Places extendsPath p t (l.identifiers names) := by
  cases h with
  | item h => exact hS _ _ _ h
  | blockAttribute h => exact places_none

theorem SpelledLines.places (hS : ∀ p a t, S p a t → Places extendsPath p t (names a))
    {p : Position} {as : List α} {u : List Char} (h : SpelledLines S p as u) :
    Places extendsPath p u (as.flatMap names) := by
  induction h with
  | close hs => exact places_none
  | @last p a s s' t hs ha hs' =>
      have hline : Places extendsPath (p.afterAll s) (t ++ s') (names a) :=
        (hS _ _ _ ha).before fun after hafter => hs'.stops (fun _ => extendsPath_of_isSpace) hafter
      simpa using hline.behind
  | @blank p as s u x hs hx h ih => simpa using ih.behind
  | @item p a as s s' t u x hs ha hs' hx h ih =>
      have hline : Places noChar (p.afterAll s) (t ++ (s' ++ [x])) (names a) :=
        (hS _ _ _ ha).before fun after _ => by
          rw [List.append_assoc]
          exact (endsLine_of_blank hs' hx _).endsValue.1
      rw [Position.afterAll_append] at ih
      have hlines := hline.append ih fun _ _ => stops_noChar _
      simpa using hlines.behind

end Lines

/-! ### Blocks -/

theorem Block.SpelledBody.places {p : Position} {b : Block} {u : List Char}
    (h : b.SpelledBody p u) : Places extendsPath p u b.innerIdentifiers := by
  cases h with
  | model h =>
      have hlines := h.places fun _ _ _ hl => hl.places fun _ _ _ hf => hf.places
      rwa [Line.flatMap_identifiers] at hlines
  | enum h =>
      have hlines := h.places fun _ _ _ hl => hl.places fun _ _ _ hv => hv.places
      rwa [Line.flatMap_identifiers, ← List.map_eq_flatMap] at hlines
  | config h =>
      have hlines := h.places fun _ _ _ hs => hs.places
      rwa [← List.map_eq_flatMap] at hlines

theorem Block.Spelled.places {p : Position} {b : Block} {t : List Char} (h : b.Spelled p t) :
    Places noChar p t b.identifiers := by
  obtain @⟨s, s', u, hs, hne, hname, hs', hbody⟩ := h
  have hname' : Places noChar (p.afterAll (b.keyword.word.toList ++ s))
      (b.name.name.toList ++ (s' ++ ['{'])) [b.name] :=
    hname.places.before fun after _ => by
      rw [List.append_assoc]
      exact (hs'.stops (fun _ => extendsPath_of_isSpace) (.cons rfl)).mono
        fun _ => isNameChar_of_extendsPath
  have hhead : Places noChar p (headText b.keyword.word s b.name.name s') [b.name] := by
    simpa [headText] using hname'.behind
  have hbody' : Places noChar _ (u ++ ['}']) b.innerIdentifiers :=
    hbody.places.before fun _ _ => .cons rfl
  exact hhead.append hbody' fun _ _ => stops_noChar _

theorem SpelledBlocks.placed {p : Position} {bs : List Block} {t : List Char}
    (h : SpelledBlocks p bs t) : Placed p t (bs.flatMap Block.identifiers) := by
  induction h with
  | nil hs => exact .nil
  | line hs hx _ ih =>
      rw [List.append_cons]
      exact ih.behind
  | block hs hb _ ih =>
      rw [Position.afterAll_append] at ih
      exact (hb.places _ _ (stops_noChar _) ih).behind

/-! ### Errors that name a place -/

/-- The type that is reported is that of the field it is reported with. -/
theorem Document.unknownType_eq {d : Document} {container field : String} {type : Identifier}
    (h : d.problem = some (.unknownType container field type)) :
    ∃ b f, Block.model b ∈ d.blocks ∧ f ∈ b.fields ∧ container = b.name.name ∧
      field = f.name.name ∧ type = f.type := by
  cases problem_eq_some_iff.mp h with
  | @unknownType before b f after _ _ hfields _ _ =>
      have hfield : (b, f) ∈ d.fields := hfields ▸ List.mem_append_right _ List.mem_cons_self
      obtain ⟨hb, hf⟩ := mem_fields_iff.mp hfield
      exact ⟨b, f, hb, hf, rfl, rfl, rfl⟩

theorem Document.declaredTwice_eq {d : Document} {i : Identifier}
    (h : d.problem = some (.declaredTwice i)) :
    ∃ bs b cs, d.blocks = bs ++ b :: cs ∧ i = b.name ∧ ∃ a ∈ bs, a.Clashes b := by
  cases problem_eq_some_iff.mp h with
  | declaredTwice hblocks hrepeated _ => exact ⟨_, _, _, hblocks, rfl, hrepeated⟩

/-- **Where the names of a schema stand.**  In a text that is read every name stands at its line and
column, the byte order mark aside, and the names stand in the order of the schema.  A name that is
reported as declared twice is that of a block behind one it clashes with, and a type that is reported
as unknown that of the reported field, so both stand where the error points. -/
theorem places_faithful {text : String} {d : Document} (h : Document.parse text = .ok d) :
    (∀ i ∈ d.identifiers, i.StandsIn (withoutMark text.toList)) ∧
    d.identifiers.Pairwise (·.position < ·.position) ∧
    (∀ i, Document.read text = .error (.declaredTwice i) →
      i.StandsIn (withoutMark text.toList) ∧
        ∃ bs b cs, d.blocks = bs ++ b :: cs ∧ i = b.name ∧ ∃ a ∈ bs, a.Clashes b) ∧
    ∀ container field type, Document.read text = .error (.unknownType container field type) →
      type.StandsIn (withoutMark text.toList) ∧
        ∃ b f, Block.model b ∈ d.blocks ∧ f ∈ b.fields ∧ container = b.name.name ∧
          field = f.name.name ∧ type = f.type := by
  have hplaced : Placed .start (withoutMark text.toList) d.identifiers :=
    (Document.parse_eq_ok_iff.mp h).placed
  have hstands : ∀ i ∈ d.identifiers, i.StandsIn (withoutMark text.toList) :=
    hplaced.standsIn [] rfl
  -- a text that is read fails only for what its schema says
  have hproblem : ∀ e, Document.read text = .error e → d.problem = some e := by
    intro e he
    rw [Document.read_of_parse h] at he
    cases hd : d.problem with
    | none =>
        rw [hd] at he
        cases he
    | some e' =>
        rw [hd] at he
        cases he
        rfl
  refine ⟨hstands, hplaced.pairwise, fun i hi => ?_, fun container field type htype => ?_⟩
  · obtain ⟨bs, b, cs, hblocks, rfl, hclash⟩ := Document.declaredTwice_eq (hproblem _ hi)
    refine ⟨hstands _ (List.mem_flatMap.mpr ⟨b, by simp [hblocks], List.mem_cons_self⟩), bs, b, cs,
      hblocks, rfl, hclash⟩
  · obtain ⟨b, f, hb, hf, hcontainer, hfield, rfl⟩ :=
      Document.unknownType_eq (hproblem _ htype)
    refine ⟨hstands _ (List.mem_flatMap.mpr ⟨_, hb, ?_⟩), b, f, hb, hf, hcontainer, hfield, rfl⟩
    exact List.mem_cons_of_mem _ (List.mem_flatMap.mpr ⟨f, hf, by simp⟩)

/-- A text with a byte order mark, carriage returns, tabs and characters of several bytes. -/
def unevenText : String :=
  "\ufeffmodel M \x7b // é\r\n\ta Unsupported(\"é\") @b(\"é\")\r\n\tc N?\n\x7d"

theorem places_unevenText : ∃ d, Document.parse unevenText = .ok d ∧
    d.identifiers = [⟨"M", ⟨1, 7⟩⟩, ⟨"a", ⟨2, 2⟩⟩, ⟨"Unsupported", ⟨2, 4⟩⟩, ⟨"c", ⟨3, 2⟩⟩,
      ⟨"N", ⟨3, 4⟩⟩] ∧
    d.identifiers.Pairwise (·.position < ·.position) ∧
    Identifier.StandsIn ⟨"N", ⟨3, 4⟩⟩ (withoutMark unevenText.toList) := by
  obtain ⟨d, hd, hidentifiers⟩ : ∃ d, Document.parse unevenText = .ok d ∧ d.identifiers =
      [⟨"M", ⟨1, 7⟩⟩, ⟨"a", ⟨2, 2⟩⟩, ⟨"Unsupported", ⟨2, 4⟩⟩, ⟨"c", ⟨3, 2⟩⟩, ⟨"N", ⟨3, 4⟩⟩] :=
    ⟨_, rfl, rfl⟩
  have hplaces := places_faithful hd
  exact ⟨d, hd, hidentifiers, hplaces.2.1, (hplaces.2.2.2 "M" "c" ⟨"N", ⟨3, 4⟩⟩ rfl).1⟩

end SchemaEnums.Schema
