import Mathlib.Logic.Relation
import SchemaEnums.Proofs.Schema.Tokens

/-!
# Schema — Kept

Nothing in the text of a schema is lost.  Its tokens are those of the canonical text of what was
read, with the lines of each block in the order in which they stood, but for four differences
(`Edit`): a comma behind the last item of a list, empty parentheses behind an attribute's name, the
argument of `Unsupported`, and how a string is escaped.

`Kept p t u` says this of a piece `t` of the text and its canonical text `u`; there is one such
statement for each form in which a piece can be spelled.
-/

namespace SchemaEnums.Schema
open Text Grammar Literal

variable {α ι : Type}

/-! ### Edits -/

/-- The last token of a value. -/
def Token.endsValue : Token → Bool
  | .mark x => x == ')' || x == ']'
  | _       => true

/-- One difference between the tokens of a text and those of its canonical text. -/
inductive Edit : List Token → List Token → Prop where
  | trailingComma {x : Token} {closing : Char} (hx : x.endsValue = true)
      (hclosing : closing = ')' ∨ closing = ']') (rest : List Token) :
      Edit (x :: .mark ',' :: .mark closing :: rest) (x :: .mark closing :: rest)
  | emptyParentheses (name : List Char) (rest : List Token) :
      Edit (.mark '@' :: .word name :: .mark '(' :: .mark ')' :: rest)
        (.mark '@' :: .word name :: rest)
  | unsupported (name body : List Char) (rest : List Token) :
      Edit (.word name :: .word "Unsupported".toList :: .mark '(' :: .string body :: .mark ')' ::
        rest) (.word name :: .word "Unsupported".toList :: rest)
  | escapes {body body' value : List Char} (h : decode body = .ok value)
      (h' : decode body' = .ok value) (rest : List Token) :
      Edit (.string body :: rest) (.string body' :: rest)
  | cons (x : Token) {ts us : List Token} (h : Edit ts us) : Edit (x :: ts) (x :: us)

/-- Any number of these differences. -/
def Edits : List Token → List Token → Prop := Relation.ReflTransGen Edit

section Edits

variable {ts ts' us us' : List Token}

theorem Edits.refl (ts : List Token) : Edits ts ts := Relation.ReflTransGen.refl

theorem Edit.edits (h : Edit ts us) : Edits ts us := Relation.ReflTransGen.single h

theorem Edits.trans (h : Edits ts us) (h' : Edits us us') : Edits ts us' :=
  Relation.ReflTransGen.trans h h'

theorem Edit.append_left (h : Edit ts us) : ∀ front : List Token, Edit (front ++ ts) (front ++ us)
  | []         => h
  | x :: front => (h.append_left front).cons x

theorem Edit.append_right (h : Edit ts us) (rest : List Token) :
    Edit (ts ++ rest) (us ++ rest) := by
  induction h with
  | trailingComma hx hclosing rest' => exact .trailingComma hx hclosing (rest' ++ rest)
  | emptyParentheses name rest' => exact .emptyParentheses name (rest' ++ rest)
  | unsupported name body rest' => exact .unsupported name body (rest' ++ rest)
  | escapes h h' rest' => exact .escapes h h' (rest' ++ rest)
  | cons x _ ih => exact ih.cons x

theorem Edits.append_left (front : List Token) (h : Edits ts us) :
    Edits (front ++ ts) (front ++ us) :=
  Relation.ReflTransGen.lift (front ++ ·) (fun _ _ h => h.append_left front) _ _ h

theorem Edits.append_right (h : Edits ts us) (rest : List Token) :
    Edits (ts ++ rest) (us ++ rest) :=
  Relation.ReflTransGen.lift (· ++ rest) (fun _ _ h => h.append_right rest) _ _ h

theorem Edits.append (h : Edits ts us) (h' : Edits ts' us') : Edits (ts ++ ts') (us ++ us') :=
  (h.append_right ts').trans (h'.append_left us)

end Edits

/-! ### Pieces -/

/-- The tokens of `t` are those of `u` but for the edits, as long as no character of `p` follows. -/
def Kept (p : Char → Bool) (t u : List Char) : Prop :=
  ∃ ts us, Lexes p t ts ∧ Lexes p u us ∧ Edits ts us

section Kept

variable {p q : Char → Bool} {s s' t t' u u' : List Char} {ts us : List Token}

theorem Lexes.kept (h : Lexes p t ts) (h' : Lexes p u ts) : Kept p t u := ⟨ts, ts, h, h', .refl ts⟩

theorem Kept.append (h : Kept p t u) (h' : Kept q t' u')
    (ht : ∀ after, Stops q after → Stops p (t' ++ after))
    (hu : ∀ after, Stops q after → Stops p (u' ++ after)) : Kept q (t ++ t') (u ++ u') := by
  obtain ⟨ts, us, hts, hus, hedits⟩ := h
  obtain ⟨ts', us', hts', hus', hedits'⟩ := h'
  exact ⟨ts ++ ts', us ++ us', hts.append hts' ht, hus.append hus' hu, hedits.append hedits'⟩

/-- Behind pieces with the same tokens that nothing can continue. -/
theorem Kept.behind (h : Kept q t u) (hs : Lexes noChar s ts) (hs' : Lexes noChar s' ts) :
    Kept q (s ++ t) (s' ++ u) :=
  (hs.kept hs').append h (fun _ _ => stops_noChar _) fun _ _ => stops_noChar _

end Kept

/-! ### Values -/

/-- A piece that is kept and whose last token ends a value. -/
def KeptValue (t u : List Char) : Prop :=
  ∃ ts x us, Lexes extendsPath t (ts ++ [x]) ∧ x.endsValue = true ∧ Lexes extendsPath u us ∧
    Edits (ts ++ [x]) us

theorem KeptValue.kept {t u : List Char} (h : KeptValue t u) : Kept extendsPath t u := by
  obtain ⟨ts, x, us, hts, -, hus, hedits⟩ := h
  exact ⟨ts ++ [x], us, hts, hus, hedits⟩

theorem IsWord.keptValue {n : List Char} (h : IsWord n) : KeptValue n n :=
  ⟨[], .word n, [.word n], h.lexes, rfl, h.lexes, .refl _⟩

theorem KeptValue.behind {s s' t u : List Char} {ss : List Token} (h : KeptValue t u)
    (hs : Lexes noChar s ss) (hs' : Lexes noChar s' ss) : KeptValue (s ++ t) (s' ++ u) := by
  obtain ⟨ts, x, us, hts, hx, hus, hedits⟩ := h
  refine ⟨ss ++ ts, x, ss ++ us, ?_, hx, hs'.append_anyhow hus, ?_⟩
  · rw [List.append_assoc]
    exact hs.append_anyhow hts
  · rw [List.append_assoc]
    exact hedits.append_left ss

section Lists

variable {opening closing : Char} {text text' : ι → List Char} {items : List ι} {t u : List Char}

theorem Listed.stops {ts : List (List Char)} (hopening : isMark opening = true)
    (h : Listed opening closing ts t) (after : List Char) : Stops extendsPath (t ++ after) := by
  obtain ⟨u, rfl⟩ := h.opens
  exact .cons (extendsPath_of_isMark hopening)

theorem bracketStyle_stops (hopening : isMark opening = true) (ts : List (List Char))
    (after : List Char) : Stops extendsPath ((bracketStyle opening closing).text ts ++ after) := by
  obtain ⟨u, hu⟩ := (bracketStyle opening closing).text_eq_cons ts
  rw [hu]
  exact .cons (extendsPath_of_isMark hopening)

theorem tailText_stops (hclosing : closing = ')' ∨ closing = ']') (ts : List (List Char))
    (after : List Char) : Stops extendsPath (tailText closing ts ++ after) := by
  cases ts with
  | nil => rcases hclosing with rfl | rfl <;> exact .cons rfl
  | cons t ts => exact .cons rfl

/-- Behind an item the tokens are kept but for a last comma, which goes with the token before it. -/
theorem ListTail.kept (hclosing : closing = ')' ∨ closing = ']')
    (values : ∀ i ∈ items, KeptValue (text i) (text' i))
    (h : ListTail closing (items.map text) u) : ∃ us vs, Lexes noChar u (us ++ [.mark closing]) ∧
      Lexes noChar (tailText closing (items.map text')) vs ∧
      ∀ x : Token, x.endsValue = true → Edits (x :: (us ++ [.mark closing])) (x :: vs) := by
  have hclose : Lexes noChar [closing] [.mark closing] := by
    rcases hclosing with rfl | rfl <;> exact lexes_mark rfl
  have hcomma : Lexes noChar [','] [.mark ','] := lexes_mark rfl
  induction items generalizing u with
  | nil =>
      cases h with
      | close hg =>
          exact ⟨[], [.mark closing], hg.lexes.append_anyhow hclose, hclose, fun x _ => .refl _⟩
      | comma hg hg' =>
          exact ⟨[.mark ','], [.mark closing], hg.lexes.append_anyhow
            (hcomma.append_anyhow (hg'.lexes.append_anyhow hclose)), hclose,
            fun x hx => (Edit.trailingComma hx hclosing []).edits⟩
  | cons i items ih =>
      rw [List.map_cons] at h
      cases h with
      | @item g g' _ u _ hg hg' h =>
          obtain ⟨us, vs, hu, hv, htail⟩ := ih (fun j hj => values j (by simp [hj])) h
          obtain ⟨ts, x, ws, ht, hx, hw, hvalue⟩ := values i (by simp)
          refine ⟨.mark ',' :: (ts ++ x :: us), .mark ',' :: (ws ++ vs), ?_, ?_, fun y _ => ?_⟩
          · have hitem := ht.append hu fun after _ => (h.endsValue hclosing after).1
            simpa using hg.lexes.append_anyhow
              (hcomma.append_anyhow (hg'.lexes.append_anyhow hitem))
          · have hitem := hw.append hv fun after _ => tailText_stops hclosing _ after
            simpa [tailText] using hcomma.append_anyhow (lexes_space.append_anyhow hitem)
          · -- the comma at the end goes first, as it stands behind the item as it was written
            have hrest := (htail x hx).append_left (y :: .mark ',' :: ts)
            have hitem := (hvalue.append_right vs).append_left [y, .mark ',']
            simpa using hrest.trans (by simpa using hitem)

/-- A list is kept from bracket to bracket. -/
theorem Listed.kept (hopening : isMark opening = true) (hclosing : closing = ')' ∨ closing = ']')
    (values : ∀ i ∈ items, KeptValue (text i) (text' i))
    (h : Listed opening closing (items.map text) t) : ∃ ts us,
      Lexes noChar t (ts ++ [.mark closing]) ∧
      Lexes noChar ((bracketStyle opening closing).text (items.map text')) us ∧
      Edits (ts ++ [.mark closing]) us := by
  have hopen : Lexes noChar [opening] [.mark opening] := lexes_mark hopening
  cases items with
  | nil =>
      have hclose : Lexes noChar [closing] [.mark closing] := by
        rcases hclosing with rfl | rfl <;> exact lexes_mark rfl
      cases h with
      | empty hg =>
          exact ⟨[.mark opening], [.mark opening, .mark closing], hopen.append_anyhow
            (hg.lexes.append_anyhow hclose), hopen.append_anyhow hclose, .refl _⟩
  | cons i items =>
      rw [List.map_cons] at h
      cases h with
      | items hg h =>
          obtain ⟨us, vs, hu, hv, htail⟩ := h.kept hclosing fun j hj => values j (by simp [hj])
          obtain ⟨ts, x, ws, ht, hx, hw, hvalue⟩ := values i (by simp)
          rw [List.map_cons, bracketStyle_text_cons]
          refine ⟨.mark opening :: (ts ++ x :: us), .mark opening :: (ws ++ vs), ?_, ?_, ?_⟩
          · have hitem := ht.append hu fun after _ => (h.endsValue hclosing after).1
            simpa using hopen.append_anyhow (hg.lexes.append_anyhow hitem)
          · exact hopen.append_anyhow
              (hw.append hv fun after _ => tailText_stops hclosing _ after)
          · have hrest := (htail x hx).append_left (.mark opening :: ts)
            have hitem := (hvalue.append_right vs).append_left [.mark opening]
            simpa using hrest.trans (by simpa using hitem)

end Lists

/-- The escapes of a string may change, and nothing else does. -/
theorem IsBody.keptValue {value : String} {body : List Char} (h : IsBody body)
    (hdecode : decode body = .ok value.toList) :
    KeptValue ('"' :: (body ++ ['"'])) (quoted value) := by
  exact ⟨[], .string body, [.string (value.toList.flatMap (Layout.Quote.escape '"'))],
    h.lexes.anyhow, rfl, (isBody_escape value.toList).lexes.anyhow,
    (Edit.escapes hdecode (decode_escape value.toList) []).edits⟩

theorem ArgumentText.keptValue {i : ArgumentText} (hlabel : Labelled i.argument.name i.label)
    (hvalue : KeptValue i.value i.argument.value.text) : KeptValue i.text i.argument.text := by
  obtain ⟨⟨name, value⟩, label, t⟩ := i
  cases hlabel with
  | none =>
      rw [Argument.text]
      exact hvalue
  | @some n s s' hn hs hs' =>
      rw [Argument.text]
      have hcolon : Lexes noChar [':'] [.mark ':'] := lexes_mark rfl
      have hlabel := hn.isWord.lexes.append (hs.lexes.append_anyhow
        (hcolon.append_anyhow hs'.lexes)) fun after _ => by
          rw [List.append_assoc]
          exact hs.stops (fun _ => extendsPath_of_isSpace) (.cons rfl)
      have hcanonical := hn.isWord.lexes.append (hcolon.append_anyhow lexes_space)
        fun _ _ => .cons rfl
      show KeptValue (n.toList ++ (s ++ ':' :: s') ++ t) (n.toList ++ ':' :: ' ' :: value.text)
      have hkept : KeptValue t value.text := hvalue
      simpa using hkept.behind hlabel hcanonical

theorem Expression.Spelled.keptValue {e : Expression} {t : List Char} (h : e.Spelled t) :
    KeptValue t e.text := by
  induction h with
  | string hbody hdecode =>
      rw [Expression.text]
      exact hbody.keptValue hdecode
  | number h =>
      rw [Expression.text]
      exact h.isWord.keptValue
  | constant h =>
      rw [Expression.text]
      exact h.isWord.keptValue
  | @call path s t items hpath hs labels _ list ih =>
      obtain ⟨ts, us, ht, hu, hedits⟩ := list.kept rfl (.inl rfl) fun i hi =>
        ArgumentText.keptValue (labels i hi) (ih i hi)
      rw [Expression.text, Argument.texts_eq, List.map_map]
      refine ⟨.word path.toList :: ts, .mark ')', .word path.toList :: us, ?_, rfl, ?_,
        hedits.append_left [.word path.toList]⟩
      · exact (hpath.isWord.lexes.append (hs.lexes.append_anyhow ht) fun after _ => by
          rw [List.append_assoc]
          exact hs.stops (fun _ => extendsPath_of_isSpace) (list.stops rfl after)).anyhow
      · exact (hpath.isWord.lexes.append hu fun after _ => bracketStyle_stops rfl _ after).anyhow
  | @array t items _ list ih =>
      obtain ⟨ts, us, ht, hu, hedits⟩ := list.kept rfl (.inr rfl) ih
      rw [Expression.text, Expression.texts_eq, List.map_map]
      exact ⟨ts, .mark ']', us, ht.anyhow, rfl, hu.anyhow, hedits⟩

/-! ### Attributes -/

theorem ArgumentText.Spelled.keptValue {i : ArgumentText} (h : i.Spelled) :
    KeptValue i.text i.argument.text := ArgumentText.keptValue h.label h.value.keptValue

/-- An attribute behind its marker.  Without arguments the parentheses go with the name. -/
theorem Attribute.Spelled.kept {a : Attribute} {t : List Char} (h : a.Spelled t) :
    Kept extendsPath ('@' :: t) ('@' :: a.text) := by
  have hmarker : Lexes noChar ['@'] [.mark '@'] := lexes_mark rfl
  cases h with
  | @bare name hname =>
      have hlexes := hmarker.append_anyhow hname.isWord.lexes
      exact hlexes.kept (by simpa [Attribute.text] using hlexes)
  | @listed name t items hname hitems list =>
      have hbare := hmarker.append_anyhow hname.isWord.lexes
      cases items with
      | nil =>
          cases list with
          | @empty g hg =>
              have hopen : Lexes noChar ['('] [.mark '('] := lexes_mark rfl
              have hclose : Lexes noChar [')'] [.mark ')'] := lexes_mark rfl
              have hlexes := hbare.append (hopen.append_anyhow (hg.lexes.append_anyhow hclose))
                fun _ _ => .cons rfl
              exact ⟨_, _, hlexes.anyhow, by simpa [Attribute.text] using hbare,
                (Edit.emptyParentheses name.toList []).edits⟩
      | cons i items =>
          obtain ⟨ts, us, ht, hu, hedits⟩ := list.kept rfl (.inl rfl) fun i hi =>
            (hitems i hi).keptValue
          refine ⟨_, _, (hbare.append ht fun after _ => list.stops rfl after).anyhow, ?_,
            hedits.append_left [.mark '@', .word name.toList]⟩
          have hlexes := (hbare.append hu fun after _ => bracketStyle_stops rfl _ after).anyhow
            (p := extendsPath)
          simpa [Attribute.text, Function.comp_def] using hlexes

theorem SpelledAttributes.kept {as : List Attribute} {t : List Char} (h : SpelledAttributes as t) :
    Kept extendsPath t (attributesText as) := by
  induction h with
  | nil => exact lexes_nil.kept lexes_nil
  | @cons a as s t u hs ha h ih =>
      have hstops : ∀ after, Stops extendsPath after → Stops extendsPath (u ++ after) :=
        fun after hafter => h.stops (fun _ => extendsPath_of_followsType) hafter
      have hstops' : ∀ after, Stops extendsPath after →
          Stops extendsPath (attributesText as ++ after) :=
        fun after hafter => attributesText_stops as rfl hafter
      have hkept := (ha.kept.append ih hstops hstops').behind hs.lexes lexes_space
      simpa [attributesText] using hkept

/-! ### Lines -/

theorem Arity.Spelled.kept {ar : Arity} {t : List Char} (h : ar.Spelled t) :
    Kept extendsPath t ar.text := by
  have hopen : Lexes noChar ['['] [.mark '['] := lexes_mark rfl
  have hclose : Lexes noChar [']'] [.mark ']'] := lexes_mark rfl
  have hoptional : Lexes noChar ['?'] [.mark '?'] := lexes_mark rfl
  cases h with
  | required => exact lexes_nil.kept lexes_nil
  | optional hs => exact (hs.lexes.append_anyhow hoptional).anyhow.kept hoptional.anyhow
  | list hs hs' =>
      exact (hs.lexes.append_anyhow (hopen.append_anyhow (hs'.lexes.append_anyhow
        hclose))).anyhow.kept (hopen.append_anyhow hclose).anyhow

/-- The name of a field and its type.  The argument of an unsupported type goes. -/
theorem SpelledType.kept {p : Position} {type : Identifier} {n s t : List Char} (hn : IsName n)
    (hs : IsSpaces s) (hne : s ≠ []) (h : SpelledType p type t) :
    Kept extendsPath (n ++ (s ++ t)) (n ++ ' ' :: type.name.toList) := by
  have hname := hn.isWord.lexes_spaces hs hne
  have hcanonical : Lexes noChar (n ++ [' ']) [.word n] :=
    hn.isWord.lexes_spaces (by simp [IsSpaces, isSpace]) (by simp)
  cases h with
  | name h =>
      have htype := h.name.isWord.lexes
      have hkept := (htype.kept htype).behind hname hcanonical
      simpa using hkept
  | @unsupported body hbody =>
      have hword : IsWord "Unsupported".toList :=
        IsName.isWord (by decide : IsName "Unsupported".toList)
      have hopen : Lexes noChar ['('] [.mark '('] := lexes_mark rfl
      have hclose : Lexes noChar [')'] [.mark ')'] := lexes_mark rfl
      have htype := hname.append_anyhow (hword.lexes.append
        (hopen.append_anyhow (hbody.lexes.append_anyhow hclose)) fun _ _ => .cons rfl)
      refine ⟨_, _, by simpa using htype.anyhow, ?_, (Edit.unsupported n body []).edits⟩
      simpa using hcanonical.append_anyhow hword.lexes

theorem Field.Spelled.kept {p : Position} {f : Field} {t : List Char} (h : f.Spelled p t) :
    Kept extendsPath t f.text := by
  obtain @⟨name, type, ar, as, s, t, u, v, hname, hs, hne, htype, harity, has⟩ := h
  have hattributes : ∀ after, Stops extendsPath after → Stops extendsPath (v ++ after) :=
    fun after hafter => has.stops (fun _ => extendsPath_of_followsType) hafter
  have hcanonical : ∀ after, Stops extendsPath after →
      Stops extendsPath (attributesText as ++ after) :=
    fun after hafter => attributesText_stops as rfl hafter
  have hmarks := harity.kept.append has.kept hattributes hcanonical
  have hkept := (htype.kept hname.name hs hne).append hmarks
    (fun after hafter => by
      rw [List.append_assoc]
      exact harity.stops (fun _ => extendsPath_of_followsType) (hattributes after hafter))
    (fun after hafter => by
      cases ar with
      | required => exact hcanonical after hafter
      | optional => exact .cons rfl
      | list => exact .cons rfl)
  simpa [Field.text] using hkept

theorem EnumValue.Spelled.kept {p : Position} {v : EnumValue} {t : List Char} (h : v.Spelled p t) :
    Kept extendsPath t v.text := by
  obtain ⟨hname, has⟩ := h
  have hlexes := hname.name.isWord.lexes
  exact (hlexes.kept hlexes).append has.kept
    (fun after hafter => has.stops (fun _ => extendsPath_of_followsType) hafter)
    (fun after hafter => attributesText_stops _ rfl hafter)

theorem Setting.Spelled.kept {p : Position} {x : Setting} {t : List Char} (h : x.Spelled p t) :
    Kept extendsPath t x.text := by
  obtain @⟨key, value, s, s', t, hkey, hs, hs', hvalue⟩ := h
  have hequals : Lexes noChar ['='] [.mark '='] := lexes_mark rfl
  have hfront := hkey.name.isWord.lexes.append (hs.lexes.append_anyhow
    (hequals.append_anyhow hs'.lexes)) fun after _ => by
      rw [List.append_assoc]
      exact hs.stops (fun _ => extendsPath_of_isSpace) (.cons rfl)
  have hcanonical := hkey.name.isWord.lexes.append (lexes_space.append_anyhow
    (hequals.append_anyhow lexes_space)) fun _ _ => .cons rfl
  have hkept := hvalue.keptValue.kept.behind hfront hcanonical
  simpa [Setting.text] using hkept

section Lines

variable {S : Position → α → List Char → Prop} {text : α → List Char}

theorem Grammar.Line.Spelled.kept (hS : ∀ p a t, S p a t → Kept extendsPath t (text a))
    {p : Position} {l : Line α} {t : List Char} (h : l.Spelled S p t) :
    Kept extendsPath t (l.text text) := by
  cases h with
  | item h => exact hS _ _ _ h
  | blockAttribute h =>
      have hmarker : Lexes noChar ['@'] [.mark '@'] := lexes_mark rfl
      exact h.kept.behind hmarker hmarker

/-- The lines of a block are kept one by one, and line breaks are no tokens. -/
theorem SpelledLines.kept (hS : ∀ p a t, S p a t → Kept extendsPath t (text a)) {p : Position}
    {as : List α} {u : List Char} (h : SpelledLines S p as u) :
    Kept extendsPath u (linesText (as.map text)) := by
  have hindent : Lexes noChar [' ', ' '] [] := IsSpaces.lexes (by simp [IsSpaces, isSpace])
  have hbreak : Lexes noChar ['\n'] [] := lexes_lineBreak rfl
  induction h with
  | close hs => exact hs.lexes.anyhow.kept lexes_nil
  | @last p a s s' t hs ha hs' =>
      have hend : Kept extendsPath s' ['\n'] := hs'.lexes.anyhow.kept hbreak.anyhow
      have hkept := ((hS _ _ _ ha).append hend
        (fun after hafter => hs'.stops (fun _ => extendsPath_of_isSpace) hafter)
        (fun _ _ => .cons rfl)).behind hs.lexes hindent
      simpa [linesText] using hkept
  | @blank p as s u x hs hx h ih =>
      have hkept := ih.behind (hs.lexes_line hx) lexes_nil
      simpa using hkept
  | @item p a as s s' t u x hs ha hs' hx h ih =>
      have hrest := ih.behind (hs'.lexes_line hx) hbreak
      have hkept := ((hS _ _ _ ha).append hrest
        (fun after _ => by
          rw [List.append_assoc, List.append_assoc]
          exact (endsLine_of_blank hs' hx _).endsValue.1)
        (fun _ _ => .cons rfl)).behind hs.lexes hindent
      simpa [linesText] using hkept

end Lines

/-! ### Blocks -/

/-- The lines of a block in some order: its items in theirs, and between them its attributes in
theirs. -/
inductive Block.Interleaved : Block → List (List Char) → Prop where
  | model {b : ModelBlock} {ls : List (Line Field)} (items : Line.items ls = b.fields)
      (attributes : Line.attributes ls = b.attributes) :
      Interleaved (.model b) (ls.map (Line.text Field.text))
  | enum {b : EnumBlock} {ls : List (Line EnumValue)} (items : Line.items ls = b.values)
      (attributes : Line.attributes ls = b.attributes) :
      Interleaved (.enum b) (ls.map (Line.text EnumValue.text))
  | config (b : ConfigBlock) : Interleaved (.config b) (b.settings.map Setting.text)

/-- The canonical text of a block, but with its lines in some such order. -/
def Block.Arranged (b : Block) (t : List Char) : Prop :=
  ∃ ls, b.Interleaved ls ∧ t = b.head ++ ('\n' :: (linesText ls ++ ['}', '\n']))

theorem headText_lexes {w n : String} {s s' : List Char} (hw : IsName w.toList)
    (hn : IsName n.toList) (hs : IsSpaces s) (hne : s ≠ []) (hs' : IsSpaces s') :
    Lexes noChar (headText w s n s') [.word w.toList, .word n.toList, .mark '{'] := by
  have hbrace : Lexes noChar ['{'] [.mark '{'] := lexes_mark rfl
  have hname := hn.isWord.lexes.append (hs'.lexes.append_anyhow hbrace) fun after _ => by
    rw [List.append_assoc]
    exact hs'.stops (fun _ => extendsPath_of_isSpace) (.cons rfl)
  simpa [headText] using (hw.isWord.lexes_spaces hs hne).append_anyhow hname

theorem Block.SpelledBody.kept {p : Position} {b : Block} {u : List Char}
    (h : b.SpelledBody p u) : ∃ ls, b.Interleaved ls ∧ Kept extendsPath u (linesText ls) := by
  cases h with
  | model h =>
      exact ⟨_, .model rfl rfl, h.kept fun _ _ _ hl => hl.kept fun _ _ _ hf => hf.kept⟩
  | enum h =>
      exact ⟨_, .enum rfl rfl, h.kept fun _ _ _ hl => hl.kept fun _ _ _ hv => hv.kept⟩
  | config h => exact ⟨_, .config _, h.kept fun _ _ _ hs => hs.kept⟩

theorem Block.Spelled.kept {p : Position} {b : Block} {t : List Char} (h : b.Spelled p t) :
    ∃ u, b.Arranged u ∧ Kept noChar t u := by
  obtain @⟨s, s', u, hs, hne, hname, hs', hbody⟩ := h
  obtain ⟨ls, hls, hkept⟩ := hbody.kept
  have hbrace : Lexes noChar ['}'] [.mark '}'] := lexes_mark rfl
  have hbreak : Lexes noChar ['\n'] [] := lexes_lineBreak rfl
  have hspaces : IsSpaces [' '] := by simp [IsSpaces, isSpace]
  have hword := isName_word b.keyword
  have hhead : b.head = headText b.keyword.word [' '] b.name.name [' '] := by
    simp [Block.head, headText]
  have hend : Kept noChar ['}'] ['}', '\n'] := hbrace.kept (hbrace.append_anyhow hbreak)
  refine ⟨_, ⟨ls, hls, rfl⟩, ?_⟩
  rw [hhead]
  exact ((hkept.append hend (fun _ _ => .cons rfl) fun _ _ => .cons rfl).behind lexes_nil
    hbreak).behind (headText_lexes hword hname.name hs hne hs')
      (headText_lexes hword hname.name hspaces (by simp) hspaces)

theorem SpelledBlocks.kept {p : Position} {bs : List Block} {t : List Char}
    (h : SpelledBlocks p bs t) :
    ∃ us, List.Forall₂ Block.Arranged bs us ∧ Edits (tokens t) (tokens us.flatten) := by
  induction h with
  | @nil p s hs =>
      have htokens := hs.tokens_append stops_nil
      rw [List.append_nil] at htokens
      exact ⟨[], .nil, by rw [htokens]; exact .refl _⟩
  | @line p bs s u x hs hx h ih =>
      obtain ⟨us, hus, hedits⟩ := ih
      refine ⟨us, hus, ?_⟩
      rw [List.append_cons, (hs.lexes_line hx).tokens_append]
      exact hedits
  | @block p b bs s t u hs hb h ih =>
      obtain ⟨us, hus, hedits⟩ := ih
      obtain ⟨v, hv, xs, ys, hxs, hys, hblock⟩ := hb.kept
      refine ⟨v :: us, .cons hv hus, ?_⟩
      rw [hs.lexes.tokens_append, hxs.tokens_append, List.flatten_cons, hys.tokens_append]
      exact hblock.append hedits

/-- **Nothing in a schema is dropped.**  The tokens of a text that is read are those of the
canonical text of what was read, with each block's attributes somewhere between its fields or
values, but for a comma behind a last item, empty parentheses of an attribute, the argument of
`Unsupported` and the escapes of strings. -/
theorem Document.tokens_of_parse (text : String) (d : Document) (h : Document.parse text = .ok d) :
    ∃ us, List.Forall₂ Block.Arranged d.blocks us ∧
      Edits (tokens (withoutMark text.toList)) (tokens us.flatten) :=
  SpelledBlocks.kept (Document.parse_eq_ok_iff.mp h)

/-- A mark and a comment, an attribute before the field, and each of the four differences. -/
def editedText : String :=
  "\ufeffmodel M \x7b // b\n  @@map(\"\\u0062\",)\n  a Unsupported(\"p\") @id()\n\x7d"

/-- What `editedText` is read as. -/
def editedDocument : Document where
  blocks := [.model ⟨.model, ⟨"M", ⟨1, 7⟩⟩,
    [⟨⟨"a", ⟨3, 3⟩⟩, ⟨"Unsupported", ⟨3, 5⟩⟩, .required, [⟨"id", []⟩]⟩],
    [⟨"map", [.mk none (.string "b")]⟩]⟩]

theorem editedText_parse : Document.parse editedText = .ok editedDocument := rfl

theorem Document.tokens_of_parse_edited :
    Document.parse editedText = .ok editedDocument ∧
      ∃ us, List.Forall₂ Block.Arranged editedDocument.blocks us ∧
        Edits (tokens (withoutMark editedText.toList)) (tokens us.flatten) :=
  ⟨editedText_parse, Document.tokens_of_parse editedText editedDocument editedText_parse⟩

end SchemaEnums.Schema
