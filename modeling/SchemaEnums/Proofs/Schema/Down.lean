import SchemaEnums.Proofs.Schema.Exact
import SchemaEnums.Proofs.Text.Down

/-!
# Schema — Down

A schema that stands some lines further down is read as it is at the beginning of a text, and its
first fault is the same, with every place moved down (`blocksFrom_down`).

The grammar looks at a position only to note it down; so each reader moves down with its text, by
one statement `…_down` for each of them.
-/

namespace SchemaEnums.Schema
open Text Text.Reader Grammar Literal

variable {α : Type} {k : Nat}

/-! ### Places in what is read -/

def Identifier.down (k : Nat) (i : Identifier) : Identifier :=
  { i with position := i.position.down k }

def Field.down (k : Nat) (f : Field) : Field :=
  { f with name := f.name.down k, type := f.type.down k }

def EnumValue.down (k : Nat) (v : EnumValue) : EnumValue := { v with name := v.name.down k }

def Setting.down (k : Nat) (s : Setting) : Setting := { s with key := s.key.down k }

/-- The block with all its names the given number of lines further down. -/
def Block.down (k : Nat) : Block → Block
  | .model b  =>
    .model { b with name := b.name.down k, fields := b.fields.map (Field.down k) }
  | .enum b   => .enum { b with name := b.name.down k, values := b.values.map (EnumValue.down k) }
  | .config b =>
    .config { b with name := b.name.down k, settings := b.settings.map (Setting.down k) }

def SyntaxError.down (k : Nat) (e : SyntaxError) : SyntaxError :=
  { e with position := e.position.down k }

/-- The value changed by `f`, or the fault further down. -/
def Checked.down {β : Type} (k : Nat) (f : α → β) : Checked α → Checked β
  | .ok a    => .ok (f a)
  | .error e => .error (e.down k)

theorem Checked.down_map {β : Type} (f : α → β) (b : Checked α) :
    (b.down k id).map f = Checked.down k id (b.map f) := by
  cases b <;> rfl

theorem Checked.bind_down {β γ δ : Type} {f : α → β} {g : α → Checked γ} {g' : β → Checked δ}
    {h : γ → δ} (hg : ∀ a, g' (f a) = (g a).down k h) (b : Checked α) :
    (b.down k f >>= g') = Checked.down k h (b >>= g) := by
  cases b with
  | error e => rfl
  | ok a => exact hg a

theorem Checked.all_down (f : α → α) (bs : List (Checked α)) :
    Checked.all (bs.map (Checked.down k f)) = (Checked.all bs).down k (List.map f) := by
  induction bs with
  | nil => rfl
  | cons b bs ih =>
      cases b with
      | error e => rfl
      | ok a =>
          simp only [List.map_cons, Checked.down, Checked.all, ih]
          cases Checked.all bs <;> rfl

/-! ### Between words -/

theorem lineBreak_down : MovesDown k id lineBreak := by
  intro c
  simp only [lineBreak, Cursor.rest_down, Cursor.advance_down]
  split
  · rfl
  · split <;> rfl
  · rfl

theorem skip_down (c : Cursor) : skip (c.down k) = (skip c).down k := by
  simp only [skip, Cursor.skipWhile_down, Cursor.rest_down]
  split <;> rfl

theorem gap_down (c : Cursor) : gap (c.down k) = (gap c).down k := by
  simp only [gap, many_down skip_down lineBreak_down, skip_down]

/-! ### Words -/

theorem identifier_down : MovesDown k (Identifier.down k) identifier := by
  intro c
  simp only [identifier, Cursor.rest_down, Cursor.run_down]
  split
  · split <;> rfl
  · rfl

theorem path_down : MovesDown k id path := by
  intro c
  have hdotted : MovesDown k (Identifier.down k) (fun c => (c.eat? ['.']).bind identifier) := by
    intro c
    simp only [Cursor.eat?_down]
    cases c.eat? ['.'] with
    | none => rfl
    | some c₁ => exact identifier_down c₁
  cases hi : identifier c with
  | none =>
      simp only [path, hi, identifier_down.of_none hi, Option.bind_eq_bind, Option.bind_none,
        Option.map_none]
  | some r =>
      have hmore := many_down (fun c => (rfl : id (c.down k) = (id c).down k)) hdotted r.2
      simp only [path, hi, identifier_down.of_some hi, Option.bind_eq_bind, Option.bind_some,
        Option.map_some, hmore, List.map_map]
      rfl

theorem sign_down (c : Cursor) : sign (c.down k) = ((sign c).1, (sign c).2.down k) := by
  simp only [sign, Cursor.eat?_down]
  cases c.eat? ['-'] <;> rfl

theorem fraction_down (c : Cursor) :
    fraction (c.down k) = ((fraction c).1, (fraction c).2.down k) := by
  simp only [fraction, Cursor.rest_down, Cursor.advance_down, Cursor.run_down]
  split
  · split <;> rfl
  · rfl

theorem number_down : MovesDown k id number := by
  intro c
  simp only [number, sign_down, Cursor.run_down, fraction_down]
  split <;> rfl

theorem stringBody_down : MovesDown k (fun b => (b.1, b.2.down k)) stringBody := by
  intro c
  cases hopen : c.eat? ['"'] with
  | none =>
      simp only [stringBody, Cursor.eat?_down, hopen, Option.bind_eq_bind, Option.map_none,
        Option.bind_none]
  | some c₁ =>
      simp only [stringBody, Cursor.eat?_down, hopen, Option.bind_eq_bind, Option.map_some,
        Option.bind_some, Cursor.rest_down, Cursor.advance_down]
      cases (c₁.advance (bodyLength c₁.rest)).eat? ['"'] <;> rfl

/-! ### Values -/

/-- The reader of a value moves down with its text. -/
abbrev ChecksDown (k : Nat) (read : Reader (Checked α)) : Prop :=
  MovesDown k (Checked.down k id) read

theorem string_down : ChecksDown k string := by
  intro c
  cases hbody : stringBody c with
  | none =>
      simp only [string, hbody, stringBody_down.of_none hbody, Option.bind_eq_bind,
        Option.bind_none, Option.map_none]
  | some r =>
      simp only [string, hbody, stringBody_down.of_some hbody, Option.bind_eq_bind,
        Option.bind_some, Option.map_some]
      cases decode r.1.1 <;> rfl

theorem bracketed_down {opening closing : Char} {item : Reader (Checked α)}
    (h : ChecksDown k item) :
    MovesDown k (List.map (Checked.down k id)) (bracketed opening closing item) :=
  listed_down gap_down h

theorem argumentName_down : MovesDown k id argumentName := by
  intro c
  cases hi : identifier c with
  | none =>
      simp only [argumentName, hi, identifier_down.of_none hi, Option.bind_eq_bind,
        Option.bind_none, Option.map_none]
  | some r =>
      simp only [argumentName, hi, identifier_down.of_some hi, Option.bind_eq_bind,
        Option.bind_some, skip_down, Cursor.eat?_down]
      cases (skip r.2).eat? [':'] with
      | none => rfl
      | some c₁ =>
          simp only [Option.map_some, Option.bind_some, skip_down]
          rfl

section Values

variable {value : Reader (Checked Expression)}

theorem argument_down (h : ChecksDown k value) : ChecksDown k (argument value) := by
  intro c
  have hvalue : ∀ (n : Option String) (c₁ : Cursor),
      ((value (c₁.down k)).bind fun r => some (r.1.map (Argument.mk n), r.2)) =
        ((value c₁).bind fun r => some (r.1.map (Argument.mk n), r.2)).map
          fun r => (Checked.down k id r.1, r.2.down k) := by
    intro n c₁
    rw [h c₁]
    cases value c₁ with
    | none => rfl
    | some r =>
        simp only [Option.map_some, Option.bind_some, Checked.down_map]
  cases hn : argumentName c with
  | none =>
      simp only [argument, hn, argumentName_down.of_none hn, Option.bind_eq_bind]
      exact hvalue none c
  | some r =>
      simp only [argument, hn, argumentName_down.of_some hn, Option.bind_eq_bind]
      exact hvalue (some r.1) r.2

theorem call_down (h : ChecksDown k value) : ChecksDown k (call value) := by
  intro c
  cases hp : path c with
  | none =>
      simp only [call, hp, path_down.of_none hp, Option.bind_eq_bind, Option.bind_none,
        Option.map_none]
  | some r =>
      simp only [call, hp, path_down.of_some hp, Option.bind_eq_bind, Option.bind_some, skip_down]
      rw [bracketed_down (argument_down h) (skip r.2)]
      cases bracketed '(' ')' (argument value) (skip r.2) with
      | none => rfl
      | some s =>
          have hall := Checked.all_down (k := k) id s.1
          rw [List.map_id_fun] at hall
          simp only [Option.map_some, Option.bind_some, hall, Checked.down_map]
          rfl

theorem array_down (h : ChecksDown k value) : ChecksDown k (array value) := by
  intro c
  simp only [array, Option.bind_eq_bind]
  rw [bracketed_down h c]
  cases bracketed '[' ']' value c with
  | none => rfl
  | some s =>
      have hall := Checked.all_down (k := k) id s.1
      rw [List.map_id_fun] at hall
      simp only [Option.map_some, Option.bind_some, hall, Checked.down_map]

end Values

theorem expressionWithin_down : ∀ bound, ChecksDown k (expressionWithin bound)
  | [],         _ => rfl
  | _ :: bound, c => by
      have ih : ChecksDown k (expressionWithin bound) := expressionWithin_down bound
      simp only [expressionWithin, call_down ih c, array_down ih c, number_down c, string_down c,
        path_down c]
      cases call (expressionWithin bound) c with
      | some r => rfl
      | none =>
          cases array (expressionWithin bound) c with
          | some r => rfl
          | none =>
              cases number c with
              | some r => rfl
              | none =>
                  cases string c with
                  | some r =>
                      simp only [Option.map_some, Option.map_none, Checked.down_map]
                      rfl
                  | none => cases path c <;> rfl

theorem expression_down : ChecksDown k expression := fun c =>
  expressionWithin_down c.rest c

theorem arguments_down : ChecksDown k arguments := by
  intro c
  simp only [arguments, Option.bind_eq_bind]
  rw [bracketed_down (argument_down expression_down) c]
  cases bracketed '(' ')' (argument expression) c with
  | none => rfl
  | some s =>
      have hall := Checked.all_down (k := k) id s.1
      rw [List.map_id_fun] at hall
      simp only [Option.map_some, Option.bind_some, hall]

theorem attributeAfter_down (marker : List Char) : ChecksDown k (attributeAfter marker) := by
  intro c
  simp only [attributeAfter, Cursor.eat?_down, Option.bind_eq_bind]
  cases c.eat? marker with
  | none => rfl
  | some c₁ =>
      simp only [Option.map_some, Option.bind_some]
      rw [path_down c₁]
      cases path c₁ with
      | none => rfl
      | some r =>
          simp only [Option.map_some, Option.bind_some]
          cases ha : arguments r.2 with
          | none => simp only [arguments_down.of_none ha, Option.map_some]; rfl
          | some s =>
              simp only [arguments_down.of_some ha, Option.map_some, Checked.down_map]
              rfl

theorem attributes_down (c : Cursor) :
    attributes (c.down k) = ((attributes c).1.down k id, (attributes c).2.down k) := by
  have hall := Checked.all_down (k := k) id (many skip (attributeAfter ['@']) c).1
  rw [List.map_id_fun] at hall
  simp only [attributes, many_down skip_down (attributeAfter_down ['@']), hall]

/-! ### Lines -/

theorem unsupported_down : MovesDown k (Identifier.down k) unsupported := by
  intro c
  simp only [unsupported, Cursor.eat?_down, Option.bind_eq_bind]
  cases c.eat? "Unsupported".toList with
  | none => rfl
  | some c₁ =>
      simp only [Option.map_some, Option.bind_some, Cursor.eat?_down]
      cases c₁.eat? ['('] with
      | none => rfl
      | some c₂ =>
          simp only [Option.map_some, Option.bind_some]
          rw [stringBody_down c₂]
          cases stringBody c₂ with
          | none => rfl
          | some r =>
              simp only [Option.map_some, Option.bind_some, Cursor.eat?_down]
              cases r.2.eat? [')'] <;> rfl

theorem arity_down (c : Cursor) : arity (c.down k) = ((arity c).1, (arity c).2.down k) := by
  simp only [arity, Cursor.eat?_down, Option.bind_eq_bind]
  cases c.eat? ['['] with
  | none => cases c.eat? ['?'] <;> rfl
  | some c₁ =>
      simp only [Option.map_some, Option.bind_some, skip_down, Cursor.eat?_down]
      cases (skip c₁).eat? [']'] with
      | none => cases c.eat? ['?'] <;> rfl
      | some c₂ => rfl

theorem type_down : MovesDown k (Identifier.down k) (fun c => unsupported c <|> identifier c) := by
  intro c
  simp only [unsupported_down c, identifier_down c]
  cases unsupported c <;> rfl

theorem field_down : MovesDown k (Checked.down k (Field.down k)) field := by
  intro c
  cases hi : identifier c with
  | none =>
      simp only [field, hi, identifier_down.of_none hi, Option.bind_eq_bind, Option.bind_none,
        Option.map_none]
  | some r =>
      have hτ := type_down (k := k) (skip r.2)
      simp only [field, hi, identifier_down.of_some hi, Option.bind_eq_bind, Option.bind_some,
        skip_down, hτ]
      cases (unsupported (skip r.2) <|> identifier (skip r.2)) with
      | none => rfl
      | some s =>
          simp only [Option.map_some, Option.bind_some, skip_down, arity_down, attributes_down]
          cases (attributes (arity (skip s.2)).2).1 <;> rfl

theorem enumValue_down : MovesDown k (Checked.down k (EnumValue.down k)) enumValue := by
  intro c
  simp only [enumValue, Option.bind_eq_bind]
  rw [identifier_down c]
  cases identifier c with
  | none => rfl
  | some r =>
      simp only [Option.map_some, Option.bind_some, attributes_down]
      cases (attributes r.2).1 <;> rfl

theorem setting_down : MovesDown k (Checked.down k (Setting.down k)) setting := by
  intro c
  simp only [setting, Option.bind_eq_bind]
  rw [identifier_down c]
  cases identifier c with
  | none => rfl
  | some r =>
      simp only [Option.map_some, Option.bind_some, skip_down, Cursor.eat?_down]
      cases (skip r.2).eat? ['='] with
      | none => rfl
      | some c₁ =>
          simp only [Option.map_some, Option.bind_some, skip_down]
          rw [expression_down (skip c₁)]
          cases expression (skip c₁) with
          | none => rfl
          | some s =>
              obtain ⟨b, c₂⟩ := s
              cases b <;> rfl

theorem line_down {item : Reader (Checked α)} {f : α → α}
    (h : MovesDown k (Checked.down k f) item) :
    MovesDown k (Checked.down k (Line.map f)) (line item) := by
  intro c
  simp only [line]
  rw [h c, attributeAfter_down ['@', '@'] c]
  cases item c with
  | some r =>
      obtain ⟨b, c₁⟩ := r
      cases b <;> rfl
  | none =>
      cases attributeAfter ['@', '@'] c with
      | none => rfl
      | some r =>
          obtain ⟨b, c₁⟩ := r
          cases b <;> rfl

/-! ### Blocks -/

theorem lineEnd_down (c : Cursor) : lineEnd (c.down k) = (lineEnd c).map (Cursor.down k) := by
  simp only [lineEnd, Cursor.rest_down]
  split
  · rfl
  · rfl
  · rw [lineBreak_down c]
    cases lineBreak c <;> rfl

section Lines

variable {read : Reader (Checked α)} {f : α → α} {fault : Fault}

theorem linesWithin_down (h : MovesDown k (Checked.down k f) read) :
    ∀ (bound : List Char) (c : Cursor), linesWithin read fault bound (c.down k) =
      (linesWithin read fault bound c).down k fun r => (r.1.map f, r.2.down k)
  | [],         c => rfl
  | x :: bound, c => by
      have ih := linesWithin_down h bound
      have hwhole : wholeLine read (skip (c.down k)) =
          (wholeLine read (skip c)).map fun r => (r.1.down k f, r.2.down k) := by
        simp only [wholeLine, skip_down, Option.bind_eq_bind]
        rw [h (skip c)]
        cases read (skip c) with
        | none => rfl
        | some r =>
            simp only [Option.map_some, Option.bind_some, skip_down, lineEnd_down]
            cases lineEnd (skip r.2) <;> rfl
      show linesStep read fault (linesWithin read fault bound) (c.down k) =
        (linesStep read fault (linesWithin read fault bound) c).down k _
      rw [linesStep, linesStep, hwhole]
      cases wholeLine read (skip c) with
      | some r =>
          simp only [Option.map_some]
          refine Checked.bind_down (fun a => ?_) r.1
          rw [ih]
          refine Checked.bind_down (fun _ => ?_) _
          rfl
      | none =>
          simp only [Option.map_none, skip_down]
          rw [lineBreak_down (skip c), lineEnd_down]
          cases lineBreak (skip c) with
          | some r => exact ih r.2
          | none => cases lineEnd (skip c) <;> rfl

theorem lines_down (h : MovesDown k (Checked.down k f) read) (c : Cursor) :
    lines read fault (c.down k) =
      (lines read fault c).down k fun r => (r.1.map f, r.2.down k) := by
  rw [lines, lines, Cursor.rest_down, linesWithin_down h]
  refine Checked.bind_down (fun r => ?_) _
  simp only [Cursor.eat?_down]
  cases r.2.eat? ['}'] <;> rfl

end Lines

theorem opening_down : MovesDown k (fun r => (r.1.down k, r.2.down k)) opening := by
  intro c
  simp only [opening, Option.bind_eq_bind]
  rw [identifier_down c]
  cases identifier c with
  | none => rfl
  | some r =>
      simp only [Option.map_some, Option.bind_some, skip_down]
      rw [identifier_down (skip r.2)]
      cases identifier (skip r.2) with
      | none => rfl
      | some s =>
          simp only [Option.map_some, Option.bind_some, skip_down, Cursor.eat?_down]
          cases (skip s.2).eat? ['{'] <;> rfl

theorem openingFault_down (c : Cursor) : openingFault (c.down k) = openingFault c := by
  rw [openingFault, openingFault, opening_down c]
  cases opening c <;> rfl

theorem blockHead_down (c : Cursor) : blockHead (c.down k) =
    (blockHead c).map fun r => (r.1, r.2.1.down k, r.2.2.down k) := by
  rw [blockHead, blockHead, opening_down c]
  cases opening c with
  | none => rfl
  | some r =>
      simp only [Option.map_some, Option.bind_some]
      show Option.map _ (Keyword.ofWord? r.1.1.name) = _
      cases Keyword.ofWord? r.1.1.name <;> rfl

theorem body_down (keyword : Keyword) (name : Identifier) (c : Cursor) :
    body keyword (name.down k) (c.down k) =
      (body keyword name c).down k fun r => (r.1.down k, r.2.down k) := by
  cases keyword with
  | model kind =>
      rw [body, body, lines_down (line_down field_down)]
      refine Checked.bind_down (fun r => ?_) _
      simp only [Checked.down, Block.down, Line.items_map, Line.attributes_map]
  | enum =>
      rw [body, body, lines_down (line_down enumValue_down)]
      refine Checked.bind_down (fun r => ?_) _
      simp only [Checked.down, Block.down, Line.items_map, Line.attributes_map]
  | config kind =>
      rw [body, body, lines_down setting_down]
      refine Checked.bind_down (fun r => ?_) _
      rfl

theorem blocksWithin_down : ∀ (bound : List Char) (c : Cursor),
    blocksWithin bound (c.down k) = (blocksWithin bound c).down k (List.map (Block.down k))
  | [],         c => rfl
  | x :: bound, c => by
      rw [blocks_loops.cons, blocks_loops.cons]
      cases hc : (skip c).rest with
      | nil =>
          rw [blocksStep_nil hc, blocksStep_nil (by rw [skip_down, Cursor.rest_down, hc])]
          rfl
      | cons y rest =>
          have hc' : (skip (c.down k)).rest = y :: rest := by rw [skip_down, Cursor.rest_down, hc]
          cases hbreak : lineBreak (skip c) with
          | some r =>
              rw [blocksStep_lineBreak hc hbreak, blocksStep_lineBreak hc'
                (by rw [skip_down]; exact lineBreak_down.of_some hbreak), blocksWithin_down bound]
          | none =>
              rw [blocksStep_block hc hbreak, blocksStep_block hc'
                (by rw [skip_down]; exact lineBreak_down.of_none hbreak), skip_down, blockHead_down]
              cases blockHead (skip c) with
              | none =>
                  simp only [Option.map_none, openingFault_down]
                  rfl
              | some r =>
                  simp only [Option.map_some, body_down]
                  refine Checked.bind_down (fun s => ?_) _
                  rw [blocksWithin_down bound]
                  refine Checked.bind_down (fun _ => ?_) _
                  rfl

/-- **A schema is read further down as it is at the beginning**, with every place moved down. -/
theorem blocksFrom_down (c : Cursor) :
    blocksFrom (c.down k) = (blocksFrom c).down k (List.map (Block.down k)) :=
  blocksWithin_down c.rest c

end SchemaEnums.Schema
