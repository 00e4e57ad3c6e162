import SchemaEnums.Proofs.Schema.Lines
import SchemaEnums.Proofs.Schema.Spelling

/-!
# Schema — Soundness

What is read off a text is spelled by it: one statement `…_spells` for each reader.

A reader yields a checked value, so the statements are about the values without a fault
(`Checked.Holds`).  Behind a type `arity` may have passed blanks that belong to no word, and a
comment among them; a line is therefore spelled up to a blank behind it (`SpellsLine`).
-/

namespace SchemaEnums.Schema
open Text Text.Reader Grammar Literal

variable {α β : Type}

/-! ### Words -/

theorem identifier_eq_some_iff {c c' : Cursor} {i : Identifier} : identifier c = some (i, c') ↔
    i.At c.position ∧ c.Passes i.name.toList c' ∧ Stops isNameChar c'.rest := by
  constructor
  · intro h
    have hname := identifier_yields h
    cases hc : c.rest with
    | nil => simp [identifier, hc] at h
    | cons x rest =>
        simp only [identifier, hc] at h
        split at h
        case isFalse => cases h
        case isTrue hx =>
          obtain ⟨rfl, rfl⟩ := Prod.mk.inj (Option.some.inj h)
          refine ⟨⟨hname, rfl⟩, ?_, c.skipWhile_stops isNameChar⟩
          rw [String.toList_ofList]
          exact c.run_passes isNameChar
  · rintro ⟨⟨hname, hposition⟩, hp, hstops⟩
    obtain ⟨x, u, hx, hopens⟩ := hname.opens
    have hc : c.rest = x :: (u ++ c'.rest) := by rw [hp.rest, hx, List.cons_append]
    have hrun := Cursor.run_eq hp.rest hname.all hstops
    rw [← hp.moved] at hrun
    simp only [identifier, hc, hopens, if_true, hrun, String.ofList_toList, ← hposition]

theorem dotted_getsOn : GetsOn id (fun c => c.eat? ['.'] >>= identifier) := by
  intro c i c' h
  obtain ⟨c₁, hdot, hi⟩ := Option.bind_eq_some_iff.mp h
  obtain ⟨-, hp, -⟩ := identifier_eq_some_iff.mp hi
  have h₁ := (Cursor.eat?_passes hdot).length
  have h₂ := hp.length
  simp only [List.length_cons, List.length_nil, id] at h₁
  omega

theorem path_spells : Spells path fun _ s t => IsPath s.toList ∧ s.toList = t := by
  intro c s c' h
  have hpath := path_yields h
  simp only [path, Option.bind_eq_bind, Option.bind_eq_some_iff, Option.some.injEq,
    Prod.mk.injEq] at h
  obtain ⟨⟨i, c₁⟩, hi, rfl, rfl⟩ := h
  obtain ⟨-, hp, -⟩ := identifier_eq_some_iff.mp hi
  obtain ⟨items, hvalues, hitems, hpasses, -⟩ := many_spells dotted_getsOn
    (S := fun i t => t = '.' :: i.name.toList) (fun c i c' h => by
      obtain ⟨c₁, hdot, hi⟩ := Option.bind_eq_some_iff.mp h
      obtain ⟨-, hp, -⟩ := identifier_eq_some_iff.mp hi
      exact ⟨_, (Cursor.eat?_passes hdot).trans hp, rfl⟩) c₁
  refine ⟨_, hp.trans hpasses, hpath, ?_⟩
  simp only [Option.bind_eq_bind] at hvalues
  rw [String.toList_intercalate, List.map_cons, hvalues, List.flatMap_congr hitems, List.map_map,
    List.map_map]
  show ['.'].intercalate _ = _
  rw [intercalate_cons, List.flatMap_map]
  rfl

theorem sign_passes (c : Cursor) : c.Passes (sign c).1 (sign c).2 := by
  rw [sign]
  split
  case h_1 hminus => exact Cursor.eat?_passes hminus
  case h_2 => exact .refl c

theorem fraction_passes (c : Cursor) : c.Passes (fraction c).1 (fraction c).2 := by
  rw [fraction]
  split
  case h_1 x rest hc =>
    split
    case isTrue => exact (Cursor.passes_advance (t := ['.']) hc).trans (Cursor.run_passes _ _)
    case isFalse => exact .refl c
  case h_2 => exact .refl c

theorem number_spells : Spells number fun _ s t => IsNumber s.toList ∧ s.toList = t := by
  intro c s c' h
  have hnumber := number_yields h
  simp only [number] at h
  split at h
  case isTrue => cases h
  case isFalse =>
    obtain ⟨rfl, rfl⟩ := Prod.mk.inj (Option.some.inj h)
    refine ⟨_, ?_, hnumber, rfl⟩
    rw [String.toList_ofList]
    exact ((sign_passes c).trans (Cursor.run_passes _ _)).trans (fraction_passes _)

theorem isBody_take : ∀ t : List Char, IsBody (t.take (bodyLength t))
  | [] => .nil
  | [x] => by
      rw [bodyLength]
      · split
        case isTrue => exact .nil
        case isFalse hx =>
          rw [bodyLength]
          exact .char (by simpa using hx) .nil
      · rintro _ _ - h
        cases h
  | x :: y :: rest => by
      by_cases hx : x = '\\'
      · subst hx
        rw [bodyLength]
        exact .escape y (isBody_take rest)
      · rw [bodyLength]
        · split
          case isTrue => exact .nil
          case isFalse hx' => exact .char (by simpa using hx') (isBody_take (y :: rest))
        · rintro _ _ h -
          exact hx h

/-- An escaped text is the body of a literal. -/
theorem isBody_escape (s : List Char) : IsBody (s.flatMap (Layout.Quote.escape '"')) := by
  have h := isBody_take (s.flatMap (Layout.Quote.escape '"') ++ ['"'])
  rwa [bodyLength_escape, List.take_left] at h

/-- A body that is closed is passed whole. -/
theorem body_passes {c c' : Cursor} (h : (c.advance (bodyLength c.rest)).eat? ['"'] = some c') :
    c.Passes (c.rest.take (bodyLength c.rest)) (c.advance (bodyLength c.rest)) := by
  have hend := (Cursor.eat?_passes h).rest
  have hle : bodyLength c.rest ≤ c.rest.length := by
    by_contra hlt
    rw [Cursor.rest_advance, List.drop_eq_nil_of_le (by omega)] at hend
    cases hend
  refine ⟨(List.take_append_drop _ _).symm, ?_⟩
  rw [List.length_take, Nat.min_eq_left hle]

theorem stringBody_spells :
    Spells stringBody fun _ b t => IsBody b.1 ∧ t = '"' :: (b.1 ++ ['"']) := by
  intro c b c' h
  simp only [stringBody, Option.bind_eq_bind, Option.bind_eq_some_iff, Option.some.injEq,
    Prod.mk.injEq] at h
  obtain ⟨c₁, hopen, c₂, hclose, rfl, rfl⟩ := h
  exact ⟨_, (Cursor.eat?_passes hopen).trans ((body_passes hclose).trans
    (Cursor.eat?_passes hclose)), isBody_take _, rfl⟩

theorem string_spells :
    Spells string fun _ b t => b.Holds fun s => (Expression.string s).Spelled t := by
  intro c b c' h
  simp only [string, Option.bind_eq_bind, Option.bind_eq_some_iff, Option.some.injEq,
    Prod.mk.injEq] at h
  obtain ⟨⟨⟨body, p⟩, c₁⟩, hbody, rfl, rfl⟩ := h
  obtain ⟨_, hp, hb, rfl⟩ := stringBody_spells hbody
  refine ⟨_, hp, fun s hs => ?_⟩
  cases hdecode : decode body with
  | error e => rw [hdecode] at hs; cases hs
  | ok u =>
      rw [hdecode] at hs
      cases hs
      exact .string hb (by rw [hdecode, String.toList_ofList])

/-! ### Values -/

/-- A list whose members are all values of `f`. -/
theorem exists_map_eq {f : α → β} {P : α → Prop} {bs : List β}
    (h : ∀ b ∈ bs, ∃ a, f a = b ∧ P a) : ∃ as : List α, as.map f = bs ∧ ∀ a ∈ as, P a := by
  induction bs with
  | nil => exact ⟨[], rfl, by simp⟩
  | cons b bs ih =>
      obtain ⟨a, ha, hP⟩ := h b (by simp)
      obtain ⟨as, has, hall⟩ := ih fun b hb => h b (by simp [hb])
      exact ⟨a :: as, by rw [List.map_cons, ha, has], List.forall_mem_cons.mpr ⟨hP, hall⟩⟩

/-- What is read as a list of values, none of them at fault, spells each of them. -/
theorem bracketed_spells {opening closing : Char} {item : Reader (Checked α)}
    {value : β → α} {text : β → List Char} {P : β → Prop} (empty : Refuses item [])
    (h : Spells item fun _ b t => b.Holds fun a => ∃ i, value i = a ∧ text i = t ∧ P i) :
    Spells (bracketed opening closing item) fun _ bs t => (Checked.all bs).Holds fun as =>
      ∃ items : List β, items.map value = as ∧ (∀ i ∈ items, P i) ∧
        Listed opening closing (items.map text) t := by
  intro c bs c' hc
  obtain ⟨t, hp, pieces, rfl, hpieces, hlist⟩ := listed_spells empty h hc
  refine ⟨t, hp, fun as has => ?_⟩
  rw [Checked.all_eq_ok_iff] at has
  -- each piece is a value of the list and its text
  have hitems : ∀ p ∈ as.zip (pieces.map Prod.snd), ∃ i, (value i, text i) = p ∧ P i := by
    intro p hp
    have hlength : as.length = pieces.length := by
      have := congrArg List.length has
      simpa using this.symm
    have hmem : (Except.ok p.1, p.2) ∈ pieces := by
      have hzip : (as.map Except.ok).zip (pieces.map Prod.snd) = pieces := by
        rw [← has, ← List.unzip_fst, ← List.unzip_snd, List.zip_unzip]
      rw [← hzip, List.zip_map_left]
      exact List.mem_map.mpr ⟨p, hp, rfl⟩
    obtain ⟨i, hvalue, htext, hP⟩ := hpieces _ hmem p.1 rfl
    exact ⟨i, by rw [hvalue, htext], hP⟩
  obtain ⟨items, hzip, hall⟩ := exists_map_eq hitems
  have hlength : as.length = (pieces.map Prod.snd).length := by
    have := congrArg List.length has
    simpa using this.symm
  have hvalues := congrArg (List.map Prod.fst) hzip
  have htexts := congrArg (List.map Prod.snd) hzip
  rw [List.map_map, List.map_fst_zip (Nat.le_of_eq hlength)] at hvalues
  rw [List.map_map, List.map_snd_zip (Nat.le_of_eq hlength.symm)] at htexts
  refine ⟨items, hvalues, hall, ?_⟩
  rw [← htexts] at hlist
  exact hlist

theorem not_atBreak {c : Cursor} {x : Char} {u : List Char} (hc : c.rest = x :: u)
    (hx : isLineBreak x = false) : ¬ AtBreak c.rest := by
  rw [hc, AtBreak, stops_cons, hx]
  simp

/-- Where a word follows on the line, the blank before it is of spaces. -/
theorem isSpaces_before {c c' : Cursor} {s t : List Char}
    (hs : IsSpaces s ∨ IsBlank s ∧ AtBreak (skip c).rest) (hp : (skip c).Passes t c')
    (ht : ∃ x u, t = x :: u ∧ isLineBreak x = false) : IsSpaces s := by
  obtain ⟨x, u, rfl, hx⟩ := ht
  rcases hs with hs | ⟨-, hbreak⟩
  · exact hs
  · exact absurd hbreak (not_atBreak hp.rest hx)

theorem skip_spells_before {c c' : Cursor} {t : List Char} (hp : (skip c).Passes t c')
    (ht : ∃ x u, t = x :: u ∧ isLineBreak x = false) : ∃ s, IsSpaces s ∧ c.Passes s (skip c) := by
  obtain ⟨s, hpasses, hs⟩ := skip_spells c
  exact ⟨s, isSpaces_before hs hp ht, hpasses⟩

theorem isLineBreak_of_opensValue {x : Char} (h : opensValue x = true) : isLineBreak x = false := by
  have := opensGap_of_opensValue h
  simp only [opensGap, Bool.or_eq_false_iff] at this
  exact this.2

theorem isLineBreak_of_isNameStart {x : Char} (h : isNameStart x = true) : isLineBreak x = false :=
  isLineBreak_of_opensValue (by simp [opensValue, h])

/-- Behind a name that was read to its end, a second one stands apart: without a space between them
the first would go on. -/
theorem spaces_spell_before_name {c c' : Cursor} {t : List Char} (hstops : Stops isNameChar c.rest)
    (hp : (skip c).Passes t c') (ht : ∃ x u, t = x :: u ∧ isNameStart x = true) :
    ∃ s, IsSpaces s ∧ s ≠ [] ∧ c.Passes s (skip c) := by
  obtain ⟨x, u, hx, hstart⟩ := ht
  obtain ⟨s, hs, hspaces⟩ := skip_spells_before hp ⟨x, u, hx, isLineBreak_of_isNameStart hstart⟩
  refine ⟨s, hs, ?_, hspaces⟩
  rintro rfl
  have hrest := (hspaces.trans hp).rest
  rw [List.nil_append, hx] at hrest
  rw [hrest, List.cons_append, stops_cons, isNameChar_of_isNameStart hstart] at hstops
  cases hstops

/-- Values are spelled by what they are read off. -/
def SpellsValues (value : Reader (Checked Expression)) : Prop :=
  Spells value fun _ b t => b.Holds fun e => e.Spelled t

/-- A value behind a blank, which is of spaces if the value is not at fault. -/
theorem SpellsValues.behind_blank {value : Reader (Checked Expression)} (hv : SpellsValues value)
    {c c' : Cursor} {b : Checked Expression} (h : value (skip c) = some (b, c')) :
    ∃ s t, c.Passes (s ++ t) c' ∧ b.Holds fun e => IsSpaces s ∧ e.Spelled t := by
  obtain ⟨t, hp, ht⟩ := hv h
  obtain ⟨s, hp', hs⟩ := skip_spells c
  refine ⟨s, t, hp'.trans hp, fun e he => ⟨isSpaces_before hs hp ?_, ht e he⟩⟩
  obtain ⟨x, u, hx, hopens⟩ := (ht e he).opens
  exact ⟨x, u, hx, isLineBreak_of_opensValue hopens⟩

theorem argument_spells {value : Reader (Checked Expression)} (hv : SpellsValues value) :
    Spells (argument value) fun _ b t =>
      b.Holds fun a => ∃ i : ArgumentText, i.argument = a ∧ i.text = t ∧ i.Spelled := by
  intro c b c' h
  cases hn : argumentName c with
  | none =>
      simp only [argument, hn, Option.bind_eq_bind, Option.bind_eq_some_iff, Option.some.injEq,
        Prod.mk.injEq] at h
      obtain ⟨⟨v, c₁⟩, hvalue, rfl, rfl⟩ := h
      obtain ⟨t, hp, ht⟩ := hv hvalue
      exact ⟨t, hp, ht.map fun e he => ⟨⟨.mk none e, [], t⟩, rfl, rfl, .none, he⟩⟩
  | some nc =>
      simp only [argument, hn, Option.bind_eq_bind, Option.bind_eq_some_iff, Option.some.injEq,
        Prod.mk.injEq] at h
      obtain ⟨⟨v, c₁⟩, hvalue, rfl, rfl⟩ := h
      simp only [argumentName, Option.bind_eq_bind, Option.bind_eq_some_iff, Option.some.injEq]
        at hn
      obtain ⟨⟨i, c₂⟩, hi, c₃, hcolon, rfl⟩ := hn
      obtain ⟨hname, hp₁, -⟩ := identifier_eq_some_iff.mp hi
      have hp₃ := Cursor.eat?_passes hcolon
      obtain ⟨s, hs, hp₂⟩ := skip_spells_before hp₃ ⟨':', [], rfl, rfl⟩
      obtain ⟨s', t, hp, ht⟩ := hv.behind_blank hvalue
      refine ⟨_, hp₁.trans (hp₂.trans (hp₃.trans hp)), ht.map fun e he => ?_⟩
      exact ⟨⟨.mk (some i.name) e, _, t⟩, rfl, by simp [ArgumentText.text],
        .some hname.name hs he.1, he.2⟩

theorem argument_refuses_nil {value : Reader (Checked Expression)} (h : Refuses value []) :
    Refuses (argument value) [] :=
  argument_refuses stops_nil h

theorem expressionWithin_spells : ∀ bound, SpellsValues (expressionWithin bound)
  | [],         _, _, _,  h => (nomatch h)
  | _ :: bound, c, b, c', h => by
      have ih := expressionWithin_spells bound
      have empty : Refuses (expressionWithin bound) [] := expressionWithin_refuses stops_nil bound
      cases expressionWithin_cases h with
      | @call p c₁ bs hpath hbs =>
          obtain ⟨_, hp₁, hpath, rfl⟩ := path_spells hpath
          obtain ⟨t, hp, ht⟩ :=
            bracketed_spells (argument_refuses_nil empty) (argument_spells ih) hbs
          obtain ⟨s, hp₂, hs⟩ := skip_spells c₁
          refine ⟨_, hp₁.trans (hp₂.trans hp), ht.map ?_⟩
          rintro as ⟨items, hvalues, hitems, hlist⟩
          obtain ⟨u, hu⟩ := hlist.opens
          rw [← hvalues]
          exact .call hpath (isSpaces_before hs hp ⟨'(', u, hu, rfl⟩)
            (fun i hi => (hitems i hi).label) (fun i hi => (hitems i hi).value) hlist
      | @array bs hbs =>
          have hitem : Spells (expressionWithin bound) fun _ b t => b.Holds fun a =>
              ∃ i : Expression × List Char, i.1 = a ∧ i.2 = t ∧ i.1.Spelled i.2 := by
            intro c b c' h
            obtain ⟨t, hp, ht⟩ := ih h
            exact ⟨t, hp, fun e he => ⟨(e, t), rfl, rfl, ht e he⟩⟩
          obtain ⟨t, hp, ht⟩ := bracketed_spells empty hitem hbs
          refine ⟨t, hp, ht.map ?_⟩
          rintro es ⟨items, hvalues, hitems, hlist⟩
          rw [← hvalues]
          exact .array hitems hlist
      | number hn =>
          obtain ⟨_, hp, hnumber, rfl⟩ := number_spells hn
          exact ⟨_, hp, fun e he => by cases he; exact .number hnumber⟩
      | string hs =>
          obtain ⟨t, hp, ht⟩ := string_spells hs
          exact ⟨t, hp, ht.map fun _ h => h⟩
      | constant hpath =>
          obtain ⟨_, hp, hpath, rfl⟩ := path_spells hpath
          exact ⟨_, hp, fun e he => by cases he; exact .constant hpath⟩

theorem expression_spells : SpellsValues expression :=
  fun c _ _ h => expressionWithin_spells c.rest h

/-! ### Attributes -/

theorem attributeAfter_spells {marker : List Char} : Spells (attributeAfter marker) fun _ b t =>
    ∃ u, t = marker ++ u ∧ b.Holds fun a => a.Spelled u := by
  intro c b c' h
  simp only [attributeAfter, Option.bind_eq_bind, Option.bind_eq_some_iff] at h
  obtain ⟨c₁, hmarker, ⟨name, c₂⟩, hname, h⟩ := h
  obtain ⟨_, hp, hpath, rfl⟩ := path_spells hname
  have hp := (Cursor.eat?_passes hmarker).trans hp
  cases ha : arguments c₂ with
  | none =>
      simp only [ha, Option.some.injEq, Prod.mk.injEq] at h
      obtain ⟨rfl, rfl⟩ := h
      exact ⟨_, hp, _, rfl, fun a ha => by cases ha; exact .bare hpath⟩
  | some ac =>
      simp only [ha, Option.some.injEq, Prod.mk.injEq] at h
      obtain ⟨rfl, rfl⟩ := h
      simp only [arguments, Option.bind_eq_bind, Option.bind_eq_some_iff, Option.some.injEq] at ha
      obtain ⟨⟨bs, _⟩, hbs, rfl⟩ := ha
      obtain ⟨t, hp', ht⟩ := bracketed_spells (argument_refuses_nil (expression_refuses stops_nil))
        (argument_spells expression_spells) hbs
      refine ⟨_, hp.trans hp', _, List.append_assoc _ _ _, ht.map fun as h => ?_⟩
      obtain ⟨items, rfl, hitems, hlist⟩ := h
      exact .listed hpath hitems hlist

theorem attributeAfter_getsOn (x : Char) (marker : List Char) :
    GetsOn skip (attributeAfter (x :: marker)) := by
  intro c b c' h
  obtain ⟨_, hp, u, rfl, -⟩ := attributeAfter_spells h
  have h₁ := hp.length
  have h₂ := skip_length c
  simp only [List.cons_append, List.length_cons] at h₁
  omega

theorem attributes_spells (c : Cursor) : ∃ t, c.Passes t (attributes c).2 ∧
    (attributes c).1.Holds fun as => SpelledAttributes as t := by
  obtain ⟨pieces, hvalues, hpieces, hp, -⟩ := many_spells (attributeAfter_getsOn '@' [])
    (S := fun b t =>
      ∃ s u, IsSpaces s ∧ t = s ++ '@' :: u ∧ b.Holds fun a : Attribute => a.Spelled u)
    (fun c b c' h => by
      obtain ⟨_, hp, u, rfl, hu⟩ := attributeAfter_spells h
      obtain ⟨s, hs, hp'⟩ := skip_spells_before hp ⟨'@', u, rfl, rfl⟩
      exact ⟨_, hp'.trans hp, s, u, hs, rfl, hu⟩) c
  have hall : (attributes c).1 = Checked.all (pieces.map Prod.fst) := congrArg Checked.all hvalues
  refine ⟨_, hp, fun as has => ?_⟩
  rw [hall, Checked.all_eq_ok_iff] at has
  clear hvalues hp hall
  induction pieces generalizing as with
  | nil =>
      cases as with
      | nil => exact .nil
      | cons a as => cases has
  | cons p pieces ih =>
      cases as with
      | nil => cases has
      | cons a as =>
          rw [List.map_cons, List.map_cons, List.cons.injEq] at has
          obtain ⟨s, u, hs, hp, hu⟩ := hpieces p (by simp)
          rw [List.flatMap_cons, hp, List.append_assoc, List.cons_append]
          exact .cons hs (hu a has.1) (ih (fun p hp => hpieces p (by simp [hp])) as has.2)

/-- Blanks before the first attribute make no difference but to where the attributes end if there
are none. -/
theorem attributes_skip (c : Cursor) : (attributes (skip c)).1 = (attributes c).1 ∧
    skip (attributes (skip c)).2 = skip (attributes c).2 := by
  cases h : attributeAfter ['@'] (skip c) with
  | none =>
      have h₁ : many skip (attributeAfter ['@']) c = ([], c) := many_of_none h
      have h₂ : many skip (attributeAfter ['@']) (skip c) = ([], skip c) :=
        many_of_none (by rw [skip_skip, h])
      simp only [attributes, h₁, h₂, skip_skip, and_self]
  | some r =>
      have h₁ := many_of_some (c := c) (attributeAfter_getsOn '@' []) h
      have h₂ := many_of_some (c := skip c) (attributeAfter_getsOn '@' []) (by rw [skip_skip, h])
      simp only [attributes, h₁, h₂, and_self]

/-! ### Lines -/

/-- What is read is spelled up to blanks behind it. -/
def SpellsLine (read : Reader (Checked α)) (S : Position → α → List Char → Prop) : Prop :=
  ∀ ⦃c : Cursor⦄ ⦃b : Checked α⦄ ⦃c' : Cursor⦄, read c = some (b, c') →
    ∃ t c₁, c.Passes t c₁ ∧ skip c₁ = skip c' ∧ b.Holds fun a => S c.position a t

theorem unsupported_spells : Spells unsupported fun p i t => SpelledType p i t := by
  intro c i c' h
  simp only [unsupported, Option.bind_eq_bind, Option.bind_eq_some_iff, Option.some.injEq,
    Prod.mk.injEq] at h
  obtain ⟨c₁, hword, c₂, hopen, ⟨⟨body, _⟩, c₃⟩, hbody, c₄, hclose, rfl, rfl⟩ := h
  obtain ⟨_, hp, hb, rfl⟩ := stringBody_spells hbody
  exact ⟨_, (Cursor.eat?_passes hword).trans ((Cursor.eat?_passes hopen).trans
    (hp.trans (Cursor.eat?_passes hclose))), .unsupported hb⟩

theorem type_spells : Spells (fun c => unsupported c <|> identifier c)
    fun p i t => SpelledType p i t := by
  intro c i c' h
  rcases eq_some_of_orElse h with h | h
  · exact unsupported_spells h
  · obtain ⟨hi, hp, -⟩ := identifier_eq_some_iff.mp h
    exact ⟨_, hp, .name hi⟩

/-- A mark is spelled where there is one; else only blanks have been passed. -/
theorem arity_spells (c : Cursor) :
    ((arity (skip c)).1 = .required ∧ (arity (skip c)).2 = skip c) ∨
      ∃ t, c.Passes t (arity (skip c)).2 ∧ (arity (skip c)).1.Spelled t := by
  cases hlist : (do (skip (← (skip c).eat? ['['])).eat? [']']) with
  | some c' =>
      obtain ⟨c₁, hopen, hclose⟩ := Option.bind_eq_some_iff.mp hlist
      have hp₂ := Cursor.eat?_passes hopen
      have hp₄ := Cursor.eat?_passes hclose
      obtain ⟨s, hs, hp₁⟩ := skip_spells_before hp₂ ⟨'[', [], rfl, rfl⟩
      obtain ⟨s', hs', hp₃⟩ := skip_spells_before hp₄ ⟨']', [], rfl, rfl⟩
      right
      simp only [arity, hlist]
      exact ⟨_, hp₁.trans (hp₂.trans (hp₃.trans hp₄)), .list hs hs'⟩
  | none =>
      cases hmark : (skip c).eat? ['?'] with
      | some c' =>
          have hp₂ := Cursor.eat?_passes hmark
          obtain ⟨s, hs, hp₁⟩ := skip_spells_before hp₂ ⟨'?', [], rfl, rfl⟩
          right
          simp only [arity, hlist, hmark]
          exact ⟨_, hp₁.trans hp₂, .optional hs⟩
      | none =>
          left
          simp only [arity, hlist, hmark, and_self]

theorem field_spells : SpellsLine field Field.Spelled := by
  intro c b c' h
  simp only [field, Option.bind_eq_bind, Option.bind_eq_some_iff, Option.some.injEq,
    Prod.mk.injEq] at h
  obtain ⟨⟨i, c₁⟩, hi, ⟨τ, c₂⟩, hτ, rfl, rfl⟩ := h
  obtain ⟨hname, hp₁, hstops⟩ := identifier_eq_some_iff.mp hi
  obtain ⟨t, hp₃, htype⟩ := type_spells hτ
  obtain ⟨s, hs, hne, hp₂⟩ := spaces_spell_before_name hstops hp₃ htype.opens
  have hhead := hp₁.trans (hp₂.trans hp₃)
  rw [(hp₁.trans hp₂).position] at htype
  rcases arity_spells c₂ with ⟨harity, hend⟩ | ⟨u, hp₄, harity⟩
  · -- what follows begins behind the blanks that were passed
    obtain ⟨hvalues, hskip⟩ := attributes_skip c₂
    obtain ⟨v, hp, has⟩ := attributes_spells c₂
    rw [harity, hend, hvalues, hskip]
    refine ⟨_, _, hhead.trans hp, rfl, has.map fun as has => ?_⟩
    have hspelled := Field.Spelled.mk hname hs hne htype .required has
    simpa using hspelled
  · obtain ⟨v, hp, has⟩ := attributes_spells (arity (skip c₂)).2
    refine ⟨_, _, hhead.trans (hp₄.trans hp), rfl, has.map fun as has => ?_⟩
    have hspelled := Field.Spelled.mk hname hs hne htype harity has
    simpa using hspelled

theorem enumValue_spells : SpellsLine enumValue EnumValue.Spelled := by
  intro c b c' h
  simp only [enumValue, Option.bind_eq_bind, Option.bind_eq_some_iff, Option.some.injEq,
    Prod.mk.injEq] at h
  obtain ⟨⟨i, c₁⟩, hi, rfl, rfl⟩ := h
  obtain ⟨hname, hp₁, -⟩ := identifier_eq_some_iff.mp hi
  obtain ⟨t, hp, has⟩ := attributes_spells c₁
  exact ⟨_, _, hp₁.trans hp, rfl, has.map fun as has => .mk hname has⟩

theorem setting_spells : SpellsLine setting Setting.Spelled := by
  intro c b c' h
  simp only [setting, Option.bind_eq_bind, Option.bind_eq_some_iff, Option.some.injEq,
    Prod.mk.injEq] at h
  obtain ⟨⟨i, c₁⟩, hi, c₂, heq, ⟨v, c₃⟩, hv, rfl, rfl⟩ := h
  obtain ⟨hkey, hp₁, -⟩ := identifier_eq_some_iff.mp hi
  have hp₃ := Cursor.eat?_passes heq
  obtain ⟨s, hs, hp₂⟩ := skip_spells_before hp₃ ⟨'=', [], rfl, rfl⟩
  obtain ⟨s', t, hp, ht⟩ := expression_spells.behind_blank hv
  exact ⟨i.name.toList ++ (s ++ '=' :: (s' ++ t)), c₃, hp₁.trans (hp₂.trans (hp₃.trans hp)), rfl,
    ht.map fun e he => .mk hkey hs he.1 he.2⟩

theorem line_spells {item : Reader (Checked α)} {S : Position → α → List Char → Prop}
    (h : SpellsLine item S) : SpellsLine (line item) (Line.Spelled S) := by
  intro c b c' hc
  rcases eq_some_of_orElse hc with hc | hc
  · obtain ⟨⟨a, _⟩, ha, hc⟩ := Option.map_eq_some_iff.mp hc
    obtain ⟨rfl, rfl⟩ := Prod.mk.inj hc
    obtain ⟨t, c₁, hp, hskip, ht⟩ := h ha
    exact ⟨t, c₁, hp, hskip, ht.map fun _ h => .item h⟩
  · obtain ⟨⟨a, _⟩, ha, hc⟩ := Option.map_eq_some_iff.mp hc
    obtain ⟨rfl, rfl⟩ := Prod.mk.inj hc
    obtain ⟨_, hp, u, rfl, hu⟩ := attributeAfter_spells ha
    exact ⟨_, _, hp, rfl, hu.map fun _ h => .blockAttribute h⟩

end SchemaEnums.Schema
