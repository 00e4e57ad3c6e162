import SchemaEnums.Proofs.Schema.Relined

/-!
# Schema — Respelled

A schema whose line ends are changed spells the same, places included (`SpelledBlocks.relined`), and
in every schema the line breaks in literals stand behind backslashes (`SpelledBlocks.clean`).  Both
go from the values over the lines to the blocks, a statement for each form.
-/

namespace SchemaEnums.Schema
open Text Grammar Literal

variable {α : Type}

/-! ### Values -/

theorem begins_of_opens {t : List Char} {p : Char → Bool} (h : ∃ x u, t = x :: u ∧ p x = true)
    (hp : p '\n' = false) : Begins t := by
  obtain ⟨x, u, rfl, hx⟩ := h
  refine ⟨x, u, rfl, ?_⟩
  rintro rfl
  rw [hp] at hx
  cases hx

theorem Labelled.quiet {name : Option String} {label : List Char} (h : Labelled name label) :
    Quiet .plain label .plain := by
  cases h with
  | none => exact .nil _
  | some hn hs hs' =>
      exact hn.isWord.quiet.append (hs.quiet.append ((quiet_mark (x := ':') rfl).append hs'.quiet))

/-- An argument respells if its value does. -/
theorem ArgumentText.Spelled.respells {i : ArgumentText} (h : i.Spelled)
    (hvalue : Respells noChar i.argument.value.Spelled i.value) :
    ItemRespells ArgumentText.text ArgumentText.argument ArgumentText.Spelled i :=
  ⟨begins_of_opens h.opens rfl, .behind h.label.quiet (hvalue.imp fun v hv =>
    ⟨⟨i.argument, i.label, v⟩, rfl, ⟨h.label, hv⟩, rfl⟩)⟩

theorem Expression.Spelled.respells {e : Expression} {t : List Char} (h : e.Spelled t) :
    Respells noChar e.Spelled t := by
  induction h with
  | string hbody hdecode => exact hbody.quiet_literal.respells (.string hbody hdecode)
  | number h => exact h.isWord.quiet.respells (.number h)
  | constant h => exact h.isWord.quiet.respells (.constant h)
  | call hpath hs labels values list ih =>
      have hitems := list.respells rfl (.inl rfl) fun i hi =>
        ArgumentText.Spelled.respells ⟨labels i hi, values i hi⟩ (ih i hi)
      refine .behind hpath.isWord.quiet (.behind hs.quiet (hitems.imp ?_))
      rintro u ⟨items', harguments, hspelled, hlist⟩
      rw [← harguments]
      exact .call hpath hs (fun i hi => (hspelled i hi).label) (fun i hi => (hspelled i hi).value)
        hlist
  | array values list ih =>
      have hitems := list.respells (f := Prod.fst) (S := fun i => i.1.Spelled i.2) rfl (.inr rfl)
        fun i hi => ⟨begins_of_opens (values i hi).opens rfl, (ih i hi).imp fun v hv =>
          ⟨(i.1, v), rfl, hv, rfl⟩⟩
      refine hitems.imp ?_
      rintro u ⟨items', hvalues, hspelled, hlist⟩
      rw [← hvalues]
      exact .array hspelled hlist

/-! ### Attributes -/

theorem Attribute.Spelled.respells {a : Attribute} {t : List Char} (h : a.Spelled t) :
    Respells noChar a.Spelled t := by
  cases h with
  | bare hname => exact hname.isWord.quiet.respells (.bare hname)
  | listed hname hitems list =>
      have hlist := list.respells rfl (.inl rfl) fun i hi =>
        (hitems i hi).respells (hitems i hi).value.respells
      refine .behind hname.isWord.quiet (hlist.imp ?_)
      rintro u ⟨items', harguments, hspelled, hlist'⟩
      rw [← harguments]
      exact .listed hname hspelled hlist'

theorem SpelledAttributes.respells {as : List Attribute} {t : List Char}
    (h : SpelledAttributes as t) : Respells noChar (SpelledAttributes as) t := by
  have hmarker : Quiet .plain ['@'] .plain := quiet_mark rfl
  induction h with
  | nil => exact (Quiet.nil _).respells .nil
  | cons hs ha _ ih =>
      exact .behind hs.quiet (.behind hmarker (ha.respells.append_anyhow fun t' ht' =>
        ih.imp fun u' hu' => .cons (t := t') (u := u') hs ht' hu'))

/-! ### Lines -/

theorem Arity.Spelled.quiet {ar : Arity} {t : List Char} (h : ar.Spelled t) :
    Quiet .plain t .plain := by
  cases h with
  | required => exact .nil _
  | optional hs => exact hs.quiet.append (quiet_mark rfl)
  | list hs hs' =>
      exact hs.quiet.append ((quiet_mark (x := '[') rfl).append (hs'.quiet.append (quiet_mark rfl)))

theorem SpelledType.quiet {p : Position} {i : Identifier} {t : List Char} (h : SpelledType p i t) :
    Quiet .plain t .plain := by
  cases h with
  | name h => exact h.name.isWord.quiet
  | unsupported hbody =>
      have hword : IsName "Unsupported".toList := by decide
      exact hword.isWord.quiet.append ((quiet_mark (x := '(') rfl).append
        (hbody.quiet_literal.append (quiet_mark rfl)))

theorem Field.Spelled.respells {p : Position} {f : Field} {t : List Char} (h : f.Spelled p t) :
    Respells noChar (f.Spelled p) t := by
  obtain ⟨hname, hs, hne, htype, harity, has⟩ := h
  exact .behind hname.name.isWord.quiet (.behind hs.quiet (.behind htype.quiet
    (.behind harity.quiet (has.respells.imp fun v hv => .mk hname hs hne htype harity hv))))

theorem EnumValue.Spelled.respells {p : Position} {v : EnumValue} {t : List Char}
    (h : v.Spelled p t) : Respells noChar (v.Spelled p) t := by
  obtain ⟨hname, has⟩ := h
  exact .behind hname.name.isWord.quiet (has.respells.imp fun u hu => .mk hname hu)

theorem Setting.Spelled.respells {p : Position} {x : Setting} {t : List Char}
    (h : x.Spelled p t) : Respells noChar (x.Spelled p) t := by
  have hequals : Quiet .plain ['='] .plain := quiet_mark rfl
  obtain ⟨hkey, hs, hs', hvalue⟩ := h
  exact .behind hkey.name.isWord.quiet (.behind hs.quiet (.behind hequals (.behind hs'.quiet
    (hvalue.respells.imp fun u hu => (mk hkey hs hs' hu :)))))

section Lines

variable {S : Position → α → List Char → Prop}

theorem Grammar.Line.Spelled.respells (hS : ∀ p a t, S p a t → Respells noChar (S p a) t)
    {p : Position} {l : Line α} {t : List Char} (h : l.Spelled S p t) :
    Respells noChar (l.Spelled S p) t := by
  have hmarker : Quiet .plain ['@'] .plain := quiet_mark rfl
  cases h with
  | item h => exact (hS _ _ _ h).imp fun u hu => .item hu
  | blockAttribute h =>
      exact .behind hmarker (.behind hmarker (h.respells.imp fun u hu => .blockAttribute hu))

variable (hopens : ∀ p a t, S p a t → ∃ x u, t = x :: u ∧ opensLine x = true)

include hopens

theorem SpelledLines.of_lineFeed {p : Position} {as : List α} {u : List Char}
    (h : SpelledLines S p as ('\n' :: u)) : SpelledLines S (p.after '\n') as u := by
  -- no item stands at a line feed
  have hitem : ∀ {s t v : List Char} {q : Position} {a : α}, IsSpaces s → S q a t →
      '\n' :: u ≠ s ++ (t ++ v) := by
    intro s t v q a hs ha hv
    obtain ⟨x, w, rfl, hx⟩ := hopens _ _ _ ha
    obtain ⟨-, rfl, -⟩ := (IsBlank.spaces hs).eq_nil_of_lineFeed hv
    exact absurd hx (by decide)
  generalize hv : '\n' :: u = v at h
  cases h with
  | close hs =>
      subst hv
      exact absurd (hs '\n' (by simp)) (by decide)
  | last hs ha => exact absurd hv (hitem hs ha)
  | blank hs hx h =>
      obtain ⟨rfl, rfl, rfl⟩ := hs.eq_nil_of_lineFeed hv
      exact h
  | item hs ha => exact absurd hv (hitem hs ha)

/-- Behind a line break, or behind its first character, the lines go on. -/
theorem SpelledLines.of_break {p : Position} {as : List α} {t u : List Char}
    (ht : t = [] ∨ t = ['\n']) (h : SpelledLines S p as (t ++ u)) :
    SpelledLines S (p.afterAll t) as u := by
  rcases ht with rfl | rfl
  · exact h
  · exact h.of_lineFeed hopens

theorem SpelledLines.respells (hS : ∀ p a t, S p a t → Respells noChar (S p a) t) {p : Position}
    {as : List α} {u : List Char} (h : SpelledLines S p as u) :
    Respells (· == '\n') (SpelledLines S p as) u := by
  -- by length, since behind a carriage return the lines may lose their first line feed
  induction hn : u.length using Nat.strongRecOn generalizing p as u with
  | ind n ih =>
      subst hn
      cases h with
      | close hs => exact hs.quiet.respells (.close hs)
      | last hs ha hs' =>
          exact .behind hs.quiet ((hS _ _ _ ha).append_anyhow fun t' ht' =>
            hs'.quiet.respells (.last hs ht' hs'))
      | @blank _ _ s u x hs hx h =>
          refine .behind_line hs hx rfl fun {v u₁ s' y v'} hu hv hs' hy hv' hplace => ?_
          subst hu
          have hlines := h.of_break hopens hv
          rw [afterAll_break, ← hplace, ← afterAll_break] at hlines
          exact (ih _ (by simp; omega) hlines rfl).imp fun u' hu' =>
            .blank hs' hy (hu'.behind_break hv')
      | @item _ a as s s' t u x hs ha hs' hx h =>
          refine .behind hs.quiet ((hS _ _ _ ha).placed.append_anyhow fun t' ht' =>
            .behind_line hs' hx rfl fun {v u₁ s₁ y v'} hu hv hs₁ hy hv' hplace => ?_)
          subst hu
          have hlines := h.of_break hopens hv
          have hbefore : ∀ w z, p.afterAll (s ++ (w ++ z)) =
              ((p.afterAll s).afterAll w).afterAll z := fun w z => by
            rw [Position.afterAll_append, Position.afterAll_append]
          rw [hbefore, afterAll_break, ← hplace, ← ht'.2, ← afterAll_break, ← hbefore] at hlines
          exact (ih _ (by simp; omega) hlines rfl).imp fun u' hu' =>
            .item hs ht'.1 hs₁ hy (hu'.behind_break hv')

end Lines

/-! ### Blocks -/

theorem Block.SpelledBody.respells {p : Position} {b : Block} {u : List Char}
    (h : b.SpelledBody p u) : Respells (· == '\n') (b.SpelledBody p) u := by
  cases h with
  | model h =>
      have hlines := SpelledLines.respells (S := Line.Spelled Field.Spelled)
        (fun _ _ _ ha => field_lineReader.opens ha)
        (fun _ _ _ hl => hl.respells fun _ _ _ hf => hf.respells) h
      exact hlines.imp fun _ hu => .model hu
  | enum h =>
      have hlines := SpelledLines.respells (S := Line.Spelled EnumValue.Spelled)
        (fun _ _ _ ha => enumValue_lineReader.opens ha)
        (fun _ _ _ hl => hl.respells fun _ _ _ hv => hv.respells) h
      exact hlines.imp fun _ hu => .enum hu
  | config h =>
      have hlines := SpelledLines.respells (S := Setting.Spelled)
        (fun _ _ _ ha => setting_lineReader.opens ha) (fun _ _ _ hs => hs.respells) h
      exact hlines.imp fun _ hu => .config hu

theorem headText_quiet {w n : String} {s s' : List Char} (hw : IsName w.toList)
    (hn : IsName n.toList) (hs : IsSpaces s) (hs' : IsSpaces s') :
    Quiet .plain (headText w s n s') .plain :=
  hw.isWord.quiet.append (hs.quiet.append (hn.isWord.quiet.append
    (hs'.quiet.append (quiet_mark rfl))))

theorem Block.Spelled.respells {p : Position} {b : Block} {t : List Char} (h : b.Spelled p t) :
    Respells noChar (b.Spelled p) t := by
  obtain ⟨hs, hne, hname, hs', hbody⟩ := h
  have hbrace : Quiet .plain ['}'] .plain := quiet_mark rfl
  exact .behind (headText_quiet (isName_word b.keyword) hname.name hs hs')
    (hbody.respells.append (fun _ _ => .cons rfl) fun u' hu' =>
      hbrace.respells (.mk hs hne hname hs' hu'))

theorem SpelledBlocks.of_lineFeed {p : Position} {bs : List Block} {u : List Char}
    (h : SpelledBlocks p bs ('\n' :: u)) : SpelledBlocks (p.after '\n') bs u := by
  generalize hv : '\n' :: u = v at h
  cases h with
  | nil hs =>
      subst hv
      exact absurd List.mem_cons_self hs.lineFeed_notMem
  | line hs hx h =>
      obtain ⟨rfl, rfl, rfl⟩ := hs.eq_nil_of_lineFeed hv
      exact h
  | block hs hb h =>
      obtain ⟨x, z, rfl, hx⟩ := hb.opens
      obtain ⟨-, rfl, -⟩ := (IsBlank.spaces hs).eq_nil_of_lineFeed hv
      exact absurd hx (by decide)

theorem SpelledBlocks.of_break {p : Position} {bs : List Block} {t u : List Char}
    (ht : t = [] ∨ t = ['\n']) (h : SpelledBlocks p bs (t ++ u)) :
    SpelledBlocks (p.afterAll t) bs u := by
  rcases ht with rfl | rfl
  · exact h
  · exact h.of_lineFeed

/-- **In a schema a line break stands in a literal behind a backslash only, and every literal
ends.** -/
theorem SpelledBlocks.clean {p : Position} {bs : List Block} {t : List Char}
    (h : SpelledBlocks p bs t) : Clean .plain t := by
  induction h with
  | nil hs =>
      obtain ⟨z, hz, hquiet⟩ := hs.quiet
      simpa using hquiet.clean (t := []) hz
  | line hs hx _ ih => exact hs.clean_line hx ih
  | block hs hb _ ih => exact hs.quiet.clean (hb.respells.clean _ (stops_noChar _) ih)

/-- **With its line ends changed a schema spells the same blocks, at the same places.** -/
theorem SpelledBlocks.relined {p : Position} {bs : List Block} {t r : List Char}
    (h : SpelledBlocks p bs t) (hr : Relined .plain t r) : SpelledBlocks p bs r := by
  induction hn : t.length using Nat.strongRecOn generalizing p bs t r with
  | ind n ih =>
      subst hn
      cases h with
      | nil hs =>
          obtain ⟨z, hz, hquiet⟩ := hs.quiet
          rw [← List.append_nil t] at hr
          obtain ⟨e, rfl, he⟩ := hquiet.relined hr
          cases he with
          | ending _ he => exact .nil (hs.note he)
      | @line _ _ s u x hs hx h =>
          rw [← List.append_nil u] at hr
          obtain ⟨v, u₁, s', y, v', r₁, rfl, hv, hs', hy, hv', hplace, rfl, hr₁⟩ :=
            Relined.blank_line hs hx stops_nil hr
          have hblocks := h.of_break hv
          rw [afterAll_break, ← hplace, ← afterAll_break] at hblocks
          rw [List.append_nil] at hr₁
          exact .line hs' hy ((ih _ (by simp; omega) hblocks hr₁ rfl).behind_break hv')
      | @block _ b bs s t u hs hb h =>
          obtain ⟨r₁, rfl, hr₁⟩ := hs.quiet.relined hr
          obtain ⟨t', r₂, rfl, hb', hplace, hr₂⟩ :=
            hb.respells.relined u r₁ (stops_noChar u) hr₁
          obtain ⟨x, w, rfl, -⟩ := hb.opens
          refine .block hs hb' (ih _ (by simp; omega) ?_ hr₂ rfl)
          rw [Position.afterAll_append] at h ⊢
          rwa [hplace]

end SchemaEnums.Schema
