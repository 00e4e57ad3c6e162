import SchemaEnums.Proofs.Schema.ValueTrees
import SchemaEnums.Proofs.Text.Before

/-!
# Schema — LineTrees

The lines of a block and the pairs they leave.

Every line has a pair, whether or not it is one that may stand there: `LineTrees` goes through the
lines with the reader and says what pair each of them leaves.  The reader stops at the first line
that may not stand there, and the rules go on behind it; so the pairs are walked to what the reader
reads (`LineTrees.walk_eq`), although there may be more of them.
-/

namespace SchemaEnums.Schema
open Text Text.Peg Text.Reader Grammar Literal

variable {α : Type} {c c₁ c' : Cursor} {e f : Pattern Rule}

/-! ### Up to blanks -/

/-- The pattern goes where a reader went, up to blanks behind, or refuses with it. -/
def FollowsLine (e : Pattern Rule) (stands : α → List Rule.Tree → Prop) (c : Cursor) :
    Option (α × Cursor) → Prop
  | none         => Matches datamodel .free e c none
  | some (a, c') =>
    ∃ ps d, Matches datamodel .free e c (some (ps, d)) ∧ skip d = skip c' ∧ stands a ps

/-- The pair begins at a place and is walked to what was read. -/
def IsLine (walk : Rule.Tree → Walk.Walked α) (p : Position) (b : Checked α)
    (ps : List Rule.Tree) : Prop :=
  ∃ t, ps = [t] ∧ t.position = p ∧ walk t = Walk.ofChecked b

section

variable {β : Type} {stands : α → List Rule.Tree → Prop} {stands' : β → List Rule.Tree → Prop}
  {x y : Option (α × Cursor)}

theorem followsLine_of_follows (h : Follows datamodel .free e stands c x) :
    FollowsLine e stands c x := by
  cases x with
  | none => exact h
  | some r =>
      obtain ⟨ps, hps, hstands⟩ := h
      exact ⟨ps, _, hps, rfl, hstands⟩

theorem FollowsLine.choice (he : FollowsLine e stands c x) (hf : FollowsLine f stands c y) :
    FollowsLine (.choice e f) stands c (x <|> y) := by
  cases x with
  | none =>
      cases y with
      | none => exact .second he hf
      | some r =>
          obtain ⟨ps, d, hps, hskip, hstands⟩ := hf
          exact ⟨ps, d, .second he hps, hskip, hstands⟩
  | some r =>
      obtain ⟨ps, d, hps, hskip, hstands⟩ := he
      exact ⟨ps, d, .first hps, hskip, hstands⟩

theorem FollowsLine.map {f : α → β} (h : FollowsLine e stands c x)
    (hf : ∀ a ps, stands a ps → stands' (f a) ps) :
    FollowsLine e stands' c (x.map fun (a, c') => (f a, c')) := by
  cases x with
  | none => exact h
  | some r =>
      obtain ⟨ps, d, hps, hskip, hstands⟩ := h
      exact ⟨ps, d, hps, hskip, hf _ _ hstands⟩

end

/-! ### Attributes of a line -/

theorem attributes_follows (c : Cursor) :
    ∃ ps d, Matches datamodel .free (.many (.rule .fieldAttribute)) (skip c) (some (ps, d)) ∧
      skip d = skip (attributes c).2 ∧
      ∃ bs, Each (Says .fieldAttribute Walk.attributeOf) bs ps ∧ (attributes c).1 = Checked.all bs := by
  obtain ⟨ps, d, hps, hskip, heach⟩ := many_follows (c := c) (attributeAfter_getsOn '@' [])
    fun d _ => attribute_follows (skip d)
  exact ⟨ps, d, hps, hskip, _, heach, rfl⟩

/-- A walk puts the attributes behind those that it has found already. -/
theorem foldlM_attributes {σ : Type} (part : σ → Rule.Tree → Walk.Walked σ)
    (put : List Attribute → σ) (hpart : ∀ as p text parts,
      part (put as) ⟨.fieldAttribute, p, text, parts⟩ =
        (Walk.attributeOf parts).map fun a => put (as ++ [a]))
    {bs : List (Checked Attribute)} {ps : List Rule.Tree}
    (h : Each (Says .fieldAttribute Walk.attributeOf) bs ps) (as : List Attribute) :
    ps.foldlM part (put as) =
      Walk.ofChecked ((Checked.all bs).map fun more => put (as ++ more)) := by
  induction h generalizing as with
  | nil =>
      rw [Checked.all, Except.map, List.append_nil]
      rfl
  | @cons b bs _ ps h _ ih =>
      obtain ⟨p, text, parts, rfl, hwalk⟩ := h
      rw [List.singleton_append, List.foldlM_cons, hpart, hwalk]
      cases b with
      | error e => rfl
      | ok a =>
          show ps.foldlM part (put (as ++ [a])) = _
          rw [ih, Checked.all]
          cases Checked.all bs with
          | error e => rfl
          | ok more => simp only [Except.map, List.append_assoc, List.singleton_append]

/-! ### Types -/

theorem unsupported_follows (c : Cursor) : Follows datamodel .free (.rule .unsupportedType)
    (fun i ps => ∃ t, ps = [t] ∧ ∀ f, Walk.typePart f t = .ok { f with type := some i }) c
    (unsupported c) := by
  -- within the rule nothing may stand between the parts
  have htight : ∀ c, Matches datamodel .atomic (datamodel.between .compound) c (some ([], c)) :=
    between_tight (by decide)
  have hbody : Follows datamodel .compound (datamodel.body .unsupportedType)
      (fun i _ => i = ⟨"Unsupported", c.position⟩) c (unsupported c) := by
    rw [unsupported]
    cases hword : c.eat? "Unsupported".toList with
    | none => exact .seqLeft (.terminalNone hword)
    | some c₁ =>
        simp only [Option.bind_eq_bind, Option.bind_some]
        cases hopen : c₁.eat? ['('] with
        | none => exact .seqRight (.terminal hword) (htight _) (.seqLeft (.terminalNone hopen))
        | some c₂ =>
            have hstring := stringLiteral_follows .compound c₂
            simp only [Option.bind_some]
            cases hbody : stringBody c₂ with
            | none =>
                rw [hbody] at hstring
                exact .seqRight (.terminal hword) (htight _)
                  (.seqRight (.terminal hopen) (htight _) (.seqLeft hstring))
            | some r =>
                obtain ⟨b, c₃⟩ := r
                rw [hbody] at hstring
                obtain ⟨ps, hps, -⟩ := hstring
                simp only [Option.bind_some]
                cases hclose : c₃.eat? [')'] with
                | none =>
                    exact .seqRight (.terminal hword) (htight _) (.seqRight (.terminal hopen)
                      (htight _) (.seqRight hps (htight _) (.terminalNone hclose)))
                | some c₄ =>
                    exact ⟨_, .seq (.terminal hword) (htight _) (.seq (.terminal hopen)
                      (htight _) (.seq hps (htight _) (.terminal hclose))), rfl⟩
  refine (hbody.rule (m := .free) (r := Rule.unsupportedType) rfl rfl).imp fun i ps hps => ?_
  obtain ⟨text, parts, rfl, rfl⟩ := hps
  exact ⟨_, rfl, fun f => rfl⟩

theorem type_follows (c : Cursor) :
    Follows datamodel .free (.choice (.rule .unsupportedType) (.rule .identifier))
      (fun i ps => ∃ t, ps = [t] ∧ ∀ f, Walk.typePart f t = .ok { f with type := some i }) c
      (unsupported c <|> identifier c) :=
  (unsupported_follows c).choice ((identifier_follows (by decide) c).imp fun i ps hps => by
    subst hps
    refine ⟨_, rfl, fun f => ?_⟩
    rw [Walk.typePart, String.ofList_toList])

/-- A mark behind the type is a pair of its own, and where there is none nothing has been passed. -/
theorem arity_follows (c : Cursor) :
    ∃ ps, Matches datamodel .free
        (.option (.choice (.rule .listMarker) (.rule .optionalMarker))) c
        (some (ps, (arity c).2)) ∧
      ∀ f : Walk.FieldParts, f.arity = .required →
        ps.foldlM Walk.typePart f = .ok { f with arity := (arity c).1 } := by
  -- the brackets are tried first, and nothing is left of an attempt that failed
  cases hlist : (do (skip (← c.eat? ['['])).eat? [']']) with
  | some c' =>
      obtain ⟨c₁, hopen, hclose⟩ := Option.bind_eq_some_iff.mp hlist
      have hbody : Matches datamodel .free (datamodel.body .listMarker) c (some ([], c')) :=
        .seq (one_matches hopen) (between_free c₁) (.terminal hclose)
      simp only [arity, hlist]
      exact ⟨_, .option (.first (hbody.leaves (m := .free) (r := Rule.listMarker) rfl rfl)),
        fun f hf => rfl⟩
  | none =>
      have hlistNone : Matches datamodel .free (.rule .listMarker) c none := by
        refine .ruleNone ?_
        cases hopen : c.eat? ['['] with
        | none => exact .seqLeft (.terminalNone hopen)
        | some c₁ =>
            rw [hopen] at hlist
            exact .seqRight (one_matches hopen) (between_free c₁) (.terminalNone hlist)
      cases hmark : c.eat? ['?'] with
      | some c' =>
          have hbody : Matches datamodel .free (datamodel.body .optionalMarker) c
              (some ([], c')) := .terminal hmark
          simp only [arity, hlist, hmark]
          exact ⟨_, .option (.second hlistNone
            (hbody.leaves (m := .free) (r := Rule.optionalMarker) rfl rfl)), fun f hf => rfl⟩
      | none =>
          simp only [arity, hlist, hmark]
          refine ⟨[], .optionNone (.second hlistNone (.ruleNone (.terminalNone hmark))), ?_⟩
          intro f hf
          rw [← hf]
          rfl

/-! ### Fields, values and settings -/

theorem field_follows (c : Cursor) : FollowsLine (datamodel.body .fieldDeclaration)
    (fun b ps => Walk.field ps = Walk.ofChecked b) c (field c) := by
  have hname := identifier_follows (m := .free) (by decide) c
  cases hi : identifier c with
  | none =>
      rw [hi] at hname
      simp only [field, hi, Option.bind_eq_bind, Option.bind_none]
      exact .seqLeft hname
  | some r =>
      obtain ⟨i, c₁⟩ := r
      rw [hi] at hname
      obtain ⟨_, hname, rfl⟩ := hname
      have htype := type_follows (skip c₁)
      cases ht : (unsupported (skip c₁) <|> identifier (skip c₁)) with
      | none =>
          rw [ht] at htype
          simp only [field, hi, ht, Option.bind_eq_bind, Option.bind_some, Option.bind_none]
          exact .seqRight hname (between_free c₁) (.seqLeft (.ruleNone (.seqLeft htype)))
      | some r =>
          obtain ⟨τ, c₂⟩ := r
          rw [ht] at htype
          obtain ⟨_, htype, t, rfl, hτ⟩ := htype
          obtain ⟨qs, harity, hqs⟩ := arity_follows (skip c₂)
          obtain ⟨rs, d, has, hskip, bs, heach, hbs⟩ := attributes_follows (arity (skip c₂)).2
          have hbody : Matches datamodel .free (datamodel.body .fieldType) (skip c₁) _ :=
            .seq htype (between_free c₂) harity
          have hpair := hbody.leaves (m := .free) (r := Rule.fieldType) rfl rfl
          simp only [field, hi, ht, Option.bind_eq_bind, Option.bind_some]
          refine ⟨_, d, .seq hname (between_free c₁) (.seq hpair (between_free _) has), hskip, ?_⟩
          -- the parts are taken up in turn: the name, the type with its mark, the attributes
          have htypes : ([t] ++ qs).foldlM Walk.typePart ⟨some i, none, .required, []⟩ =
              .ok ⟨some i, some τ, (arity (skip c₂)).1, []⟩ := by
            rw [List.singleton_append, List.foldlM_cons, hτ]
            exact hqs _ rfl
          have hattributes := foldlM_attributes Walk.fieldPart
            (fun as => ⟨some i, some τ, (arity (skip c₂)).1, as⟩)
            (fun as p text parts => by
              rw [Walk.fieldPart]
              cases Walk.attributeOf parts <;> rfl) heach []
          show Walk.field _ = _
          rw [Walk.field, List.singleton_append, List.foldlM_cons, Walk.fieldPart,
            String.ofList_toList]
          show (List.foldlM Walk.fieldPart ⟨some i, none, .required, []⟩ _ >>= _) = _
          rw [List.singleton_append, List.foldlM_cons, Walk.fieldPart, htypes]
          show (List.foldlM Walk.fieldPart ⟨some i, some τ, (arity (skip c₂)).1, []⟩ rs >>= _) = _
          rw [hattributes, hbs]
          cases Checked.all bs <;> rfl

theorem enumValue_follows (c : Cursor) : FollowsLine (datamodel.body .enumValueDeclaration)
    (fun b ps => Walk.enumValue ps = Walk.ofChecked b) c (enumValue c) := by
  have hname := identifier_follows (m := .free) (by decide) c
  cases hi : identifier c with
  | none =>
      rw [hi] at hname
      simp only [enumValue, hi, Option.bind_eq_bind, Option.bind_none]
      exact .seqLeft hname
  | some r =>
      obtain ⟨i, c₁⟩ := r
      rw [hi] at hname
      obtain ⟨_, hname, rfl⟩ := hname
      obtain ⟨rs, d, has, hskip, bs, heach, hbs⟩ := attributes_follows c₁
      simp only [enumValue, hi, Option.bind_eq_bind, Option.bind_some]
      refine ⟨_, d, .seq hname (between_free c₁) has, hskip, ?_⟩
      have hattributes := foldlM_attributes Walk.enumValuePart (fun as => (some i, as))
        (fun as p text parts => by
          rw [Walk.enumValuePart]
          cases Walk.attributeOf parts <;> rfl) heach []
      show Walk.enumValue _ = _
      rw [Walk.enumValue, List.singleton_append, List.foldlM_cons, Walk.enumValuePart,
        String.ofList_toList]
      show (List.foldlM Walk.enumValuePart (some i, []) rs >>= _) = _
      rw [hattributes, hbs]
      cases Checked.all bs <;> rfl

theorem setting_follows (c : Cursor) : FollowsLine (datamodel.body .keyValue)
    (fun b ps => Walk.setting ps = Walk.ofChecked b) c (setting c) := by
  have hname := identifier_follows (m := .free) (by decide) c
  cases hi : identifier c with
  | none =>
      rw [hi] at hname
      simp only [setting, hi, Option.bind_eq_bind, Option.bind_none]
      exact .seqLeft hname
  | some r =>
      obtain ⟨i, c₁⟩ := r
      rw [hi] at hname
      obtain ⟨_, hname, rfl⟩ := hname
      simp only [setting, hi, Option.bind_eq_bind, Option.bind_some]
      cases heq : (skip c₁).eat? ['='] with
      | none => exact .seqRight hname (between_free c₁) (.seqLeft (.terminalNone heq))
      | some c₂ =>
          have hvalue := expression_follows (skip c₂)
          simp only [Option.bind_some]
          cases hv : expression (skip c₂) with
          | none =>
              rw [hv] at hvalue
              exact .seqRight hname (between_free c₁)
                (.seqRight (one_matches heq) (between_free c₂) hvalue)
          | some r =>
              obtain ⟨v, c₃⟩ := r
              rw [hv] at hvalue
              obtain ⟨_, hvalue, p, text, parts, rfl, hwalk⟩ := hvalue
              refine ⟨_, c₃, .seq hname (between_free c₁)
                (.seq (one_matches heq) (between_free c₂) hvalue), rfl, ?_⟩
              show Walk.setting _ = _
              rw [Walk.setting, List.singleton_append, List.foldlM_cons, Walk.settingPart,
                String.ofList_toList]
              show (List.foldlM Walk.settingPart (some i, none) [⟨.expression, p, text, parts⟩] >>=
                _) = _
              rw [List.foldlM_cons, Walk.settingPart, hwalk]
              cases v <;> rfl

/-! ### Lines -/

/-- A rule for lines whose parts are walked to what is read. -/
theorem followsLine_rule {r : Rule} {walk : List Rule.Tree → Walk.Walked α}
    {x : Option (Checked α × Cursor)} (hkind : datamodel.kind r = .normal)
    (h : FollowsLine (datamodel.body r) (fun b ps => walk ps = Walk.ofChecked b) c x) :
    FollowsLine (.rule r) (fun b ps => ∃ text parts,
      ps = [⟨r, c.position, text, parts⟩] ∧ walk parts = Walk.ofChecked b) c x := by
  cases x with
  | none => exact .ruleNone (by rw [hkind]; exact h)
  | some y =>
      obtain ⟨ps, d, hps, hskip, hwalk⟩ := h
      exact ⟨_, d, hps.leaves (by rw [hkind]; rfl) (by rw [hkind]; rfl), hskip, _, _, rfl, hwalk⟩

theorem line_follows {r : Rule} {item : Reader (Checked α)}
    {walk : List Rule.Tree → Walk.Walked α} {walkLine : Rule.Tree → Walk.Walked (Line α)}
    (hkind : datamodel.kind r = .normal)
    (h : ∀ c, FollowsLine (datamodel.body r) (fun b ps => walk ps = Walk.ofChecked b) c (item c))
    (hitem : ∀ p text parts, walkLine ⟨r, p, text, parts⟩ = (walk parts).map .item)
    (hattribute : ∀ p text parts,
      walkLine ⟨.blockAttribute, p, text, parts⟩ = (Walk.attributeOf parts).map .blockAttribute)
    (c : Cursor) : FollowsLine (.choice (.rule r) (.rule .blockAttribute))
      (IsLine walkLine c.position) c (line item c) := by
  have hattributes := (attribute_body_follows (r := .blockAttribute) rfl c).rule (m := .free) rfl rfl
  refine ((followsLine_rule hkind (h c)).map (f := fun a => a.map Line.item)
    fun b ps hps => ?_).choice ((followsLine_of_follows hattributes).map
      (f := fun a => a.map Line.blockAttribute) fun b ps hps => ?_)
  · obtain ⟨text, parts, rfl, hwalk⟩ := hps
    exact ⟨_, rfl, rfl, by rw [hitem, hwalk, Walk.ofChecked_map]⟩
  · obtain ⟨text, parts, rfl, hwalk⟩ := hps
    exact ⟨_, rfl, rfl, by rw [hattribute, hwalk, Walk.ofChecked_map]⟩

/-! ### Lines get on -/

theorem identifier_length {i : Identifier} (h : identifier c = some (i, c')) :
    c'.rest.length < c.rest.length := by
  obtain ⟨hi, hp, -⟩ := identifier_eq_some_iff.mp h
  have hlength := hp.length
  have hpos := List.length_pos_iff.mpr hi.name.ne_nil
  omega

theorem attributes_length (c : Cursor) : (attributes c).2.rest.length ≤ c.rest.length := by
  obtain ⟨t, hp, -⟩ := attributes_spells c
  have hlength := hp.length
  omega

theorem field_length {b : Checked Field} (h : field c = some (b, c')) :
    c'.rest.length < c.rest.length := by
  simp only [field, Option.bind_eq_bind, Option.bind_eq_some_iff, Option.some.injEq,
    Prod.mk.injEq] at h
  obtain ⟨⟨i, c₁⟩, hi, ⟨τ, c₂⟩, hτ, -, rfl⟩ := h
  obtain ⟨t, hp, -⟩ := type_spells hτ
  have h₁ := identifier_length hi
  have h₂ := skip_length c₁
  have h₃ := hp.length
  have h₄ : (arity (skip c₂)).2.rest.length ≤ c₂.rest.length := by
    rcases arity_spells c₂ with ⟨-, hend⟩ | ⟨u, hp, -⟩
    · rw [hend]
      exact skip_length c₂
    · have := hp.length
      omega
  have h₅ := attributes_length (arity (skip c₂)).2
  dsimp only at h₃ ⊢
  omega

theorem enumValue_length {b : Checked EnumValue} (h : enumValue c = some (b, c')) :
    c'.rest.length < c.rest.length := by
  simp only [enumValue, Option.bind_eq_bind, Option.bind_eq_some_iff, Option.some.injEq,
    Prod.mk.injEq] at h
  obtain ⟨⟨i, c₁⟩, hi, -, rfl⟩ := h
  have h₁ := identifier_length hi
  have h₂ := attributes_length c₁
  dsimp only
  omega

theorem setting_length {b : Checked Setting} (h : setting c = some (b, c')) :
    c'.rest.length < c.rest.length := by
  simp only [setting, Option.bind_eq_bind, Option.bind_eq_some_iff, Option.some.injEq,
    Prod.mk.injEq] at h
  obtain ⟨⟨i, c₁⟩, hi, c₂, heq, ⟨v, c₃⟩, hv, -, rfl⟩ := h
  obtain ⟨t, hp, -⟩ := expression_spells hv
  have h₁ := identifier_length hi
  have h₂ := skip_length c₁
  have h₃ := eat?_length heq
  have h₄ := skip_length c₂
  have h₅ := hp.length
  dsimp only at h₃ h₅ ⊢
  omega

theorem line_length {item : Reader (Checked α)}
    (hitem : ∀ ⦃c b c'⦄, item c = some (b, c') → c'.rest.length < c.rest.length)
    {b : Checked (Line α)} (h : line item c = some (b, c')) : c'.rest.length < c.rest.length := by
  rcases eq_some_of_orElse h with h | h
  · obtain ⟨⟨a, _⟩, ha, h⟩ := Option.map_eq_some_iff.mp h
    obtain ⟨-, rfl⟩ := Prod.mk.inj h
    exact hitem ha
  · obtain ⟨⟨a, _⟩, ha, h⟩ := Option.map_eq_some_iff.mp h
    obtain ⟨-, rfl⟩ := Prod.mk.inj h
    obtain ⟨_, hp, u, rfl, -⟩ := attributeAfter_spells ha
    have hlength := hp.length
    simp only [List.length_append, List.length_cons] at hlength
    omega

/-- The pairs of the lines that `read` reads are walked to what is read, and those of other lines
to a fault. -/
structure LineRule (read : Reader (Checked α)) (e : Pattern Rule)
    (walk : Rule.Tree → Walk.Walked α) (fault : Fault) : Prop where
  follows : ∀ c, FollowsLine e (IsLine walk c.position) c (read c)
  shorter : ∀ ⦃c b c'⦄, read c = some (b, c') → c'.rest.length < c.rest.length
  stray   : ∀ p text parts,
    walk ⟨.blockLevelCatchAll, p, text, parts⟩ = .error (.fault ⟨p, fault⟩)

theorem field_lineRule : LineRule (line field)
    (.choice (.rule .fieldDeclaration) (.rule .blockAttribute)) Walk.modelLine .notField where
  follows := line_follows rfl field_follows (fun _ _ _ => rfl) (fun _ _ _ => rfl)
  shorter := fun _ _ _ => line_length fun _ _ _ => field_length
  stray   := fun _ _ _ => rfl

theorem enumValue_lineRule : LineRule (line enumValue)
    (.choice (.rule .enumValueDeclaration) (.rule .blockAttribute)) Walk.enumLine
    .notEnumValue where
  follows := line_follows rfl enumValue_follows (fun _ _ _ => rfl) (fun _ _ _ => rfl)
  shorter := fun _ _ _ => line_length fun _ _ _ => enumValue_length
  stray   := fun _ _ _ => rfl

theorem setting_lineRule (kind : ConfigKind) : LineRule setting (.rule .keyValue)
    (Walk.configLine (some (.config kind))) (.notSetting kind) where
  follows := fun c => by
    have h := followsLine_rule (r := .keyValue) rfl (setting_follows c)
    cases hr : setting c with
    | none =>
        rw [hr] at h
        exact h
    | some r =>
        rw [hr] at h
        obtain ⟨ps, d, hps, hskip, text, parts, rfl, hwalk⟩ := h
        exact ⟨_, d, hps, hskip, _, rfl, rfl, hwalk⟩
  shorter := fun _ _ _ => setting_length
  stray   := fun _ _ _ => rfl

/-! ### Where lines end -/

/-- A rule of one terminal, looked at ahead. -/
theorem recognizes_ahead {m : Mode} {r : Rule} {t : Terminal}
    (hbody : datamodel.body r = .terminal t) :
    Recognizes datamodel m (.ahead (.rule r)) fun c => (t.read c).map fun _ => c := by
  intro c
  dsimp only
  cases hr : t.read c with
  | none => exact .aheadNone (.ruleNone (by rw [hbody]; exact .terminalNone hr))
  | some c' => exact .ahead (.rule (by rw [hbody]; exact .terminal hr))

theorem lineEnd_of_cons {x : Char} {rest : List Char} (hc : c.rest = x :: rest) (hx : x ≠ '}') :
    lineEnd c = (lineBreak c).map (·.2) := by
  rw [lineEnd]
  split
  case h_1 hnil => rw [hc] at hnil; cases hnil
  case h_2 hbrace =>
    rw [hc] at hbrace
    exact absurd (List.cons.inj hbrace).1 hx
  case h_3 => rfl

theorem recognizes_lineEnd : Recognizes datamodel .free (.rule .lineEnd) lineEnd := by
  refine Recognizes.rule (r := Rule.lineEnd) ((recognizes_newline.choice
    ((recognizes_ahead (r := .blockClose) rfl).choice
      (recognizes_ahead (r := .endOfInput) rfl))).congr fun c => ?_) rfl rfl
  cases hc : c.rest with
  | nil =>
      simp only [lineEnd, hc, lineBreak_refuses stops_nil c hc, Terminal.read, Cursor.eat?]
      rfl
  | cons x rest =>
      by_cases hx : x = '}'
      · subst hx
        rw [lineEnd_of_brace hc, lineBreak_refuses (.cons rfl) c hc, Terminal.read,
          Cursor.eat?_char hc]
        rfl
      · rw [lineEnd_of_cons hc hx]
        simp [Terminal.read, eat?_cons hc, Ne.symm hx, hc]

theorem lineEnd_eq_none_iff : lineEnd c = none ↔
    ∃ x rest, c.rest = x :: rest ∧ x ≠ '}' ∧ isLineBreak x = false := by
  cases hc : c.rest with
  | nil => simp [lineEnd, hc]
  | cons x rest =>
      by_cases hx : x = '}'
      · subst hx
        simp [lineEnd_of_brace hc]
      · have hbreak := lineBreak_isSome hc
        rw [lineEnd_of_cons hc hx, Option.map_eq_none_iff, ← Option.isNone_iff_eq_none,
          ← Option.not_isSome, hbreak]
        simp [hx]

theorem lineBreak_of_lineEnd (h : lineEnd c = none) : lineBreak c = none := by
  obtain ⟨x, rest, hc, -, hx⟩ := lineEnd_eq_none_iff.mp h
  exact lineBreak_refuses (.cons hx) c hc

theorem recognizes_blockLevelCatchAll :
    Recognizes datamodel .atomic (datamodel.body .blockLevelCatchAll) fun c =>
      if lineEnd c = none then some (behindLine c) else none := by
  have hclose : Recognizes datamodel .atomic (.rule .blockClose) (Terminal.char (· == '}')).read :=
    (recognizes_one '}').rule rfl rfl
  refine (hclose.not.seq recognizes_line).congr fun c => ?_
  cases hc : c.rest with
  | nil =>
      have hnil : ∀ p : Char → Bool, Stops p c.rest := fun _ => hc ▸ stops_nil
      simp [char_read_stops (hnil _), lineEnd, hc]
  | cons x rest =>
      by_cases hx : x = '}'
      · subst hx
        simp [char_read_cons hc, lineEnd_of_brace hc]
      · have hend : lineEnd c = none ↔ isLineBreak x = false := by
          rw [lineEnd_eq_none_iff, hc]
          simp [hx]
        cases hbreak : isLineBreak x <;> simp [char_read_cons hc, hx, hend, hbreak]

/-! ### The lines of a block -/

/-- The lines from a place on, the pairs they leave, and the place where they end.  A line that
`read` does not read to its end is left as it is, and the lines go on behind it. -/
inductive LineTrees (read : Reader (Checked α)) (walk : Rule.Tree → Walk.Walked α) :
    Cursor → List Rule.Tree → Cursor → Prop where
  | line {c c₁ c' : Cursor} {b : Checked α} {t : Rule.Tree} {ts : List Rule.Tree} {s : List Char}
      (hwhole : wholeLine read (skip c) = some (b, c₁)) (ht : t.position = (skip c).position)
      (hwalk : walk t = Walk.ofChecked b) (hp : (skip c).Passes s c₁) (hne : s ≠ [])
      (h : LineTrees read walk c₁ ts c') : LineTrees read walk c (t :: ts) c'
  | blank {c c₁ c' : Cursor} {ts : List Rule.Tree} (hwhole : wholeLine read (skip c) = none)
      (hbreak : lineBreak (skip c) = some ((), c₁)) (h : LineTrees read walk c₁ ts c') :
      LineTrees read walk c ts c'
  | stray {c c' : Cursor} {text : List Char} {parts ts : List Rule.Tree}
      (hwhole : wholeLine read (skip c) = none) (hend : lineEnd (skip c) = none)
      (h : LineTrees read walk (behindLine (skip c)) ts c') :
      LineTrees read walk c (⟨.blockLevelCatchAll, (skip c).position, text, parts⟩ :: ts) c'
  | stop {c : Cursor} (hwhole : wholeLine read (skip c) = none)
      (hbreak : lineBreak (skip c) = none) (hend : (lineEnd (skip c)).isSome = true) :
      LineTrees read walk c [] (skip c)

section Lines

variable {read : Reader (Checked α)} {walk : Rule.Tree → Walk.Walked α} {fault : Fault}
  {ts : List Rule.Tree}

theorem behindLine_length_of_lineEnd (h : lineEnd c = none) :
    (behindLine c).rest.length < c.rest.length := by
  obtain ⟨x, rest, hc, -, hx⟩ := lineEnd_eq_none_iff.mp h
  exact behindLine_length hc hx

theorem wholeLine_length (h : LineRule read e walk fault) {b : Checked α}
    (hwhole : wholeLine read c = some (b, c')) : c'.rest.length < c.rest.length := by
  simp only [wholeLine, Option.bind_eq_bind, Option.bind_eq_some_iff, Option.some.injEq,
    Prod.mk.injEq] at hwhole
  obtain ⟨⟨_, c₁⟩, hread, c₂, hend, -, rfl⟩ := hwhole
  have h₁ := h.shorter hread
  have h₂ := skip_length c₁
  have h₃ := lineEnd_length hend
  dsimp only at h₃
  omega

/-- What one turn of the repetition does at a line. -/
theorem wholeLine_follows (h : LineRule read e walk fault) (c : Cursor) :
    Follows datamodel .free (.seq e (.rule .lineEnd)) (IsLine walk c.position) c
      (wholeLine read c) := by
  have hline := h.follows c
  rw [wholeLine]
  cases hread : read c with
  | none =>
      rw [hread] at hline
      exact .seqLeft hline
  | some r =>
      obtain ⟨b, c₁⟩ := r
      rw [hread] at hline
      obtain ⟨ps, d, hps, hskip, hstands⟩ := hline
      have hend := recognizes_lineEnd (skip c₁)
      simp only [Option.bind_eq_bind, Option.bind_some]
      cases hc : lineEnd (skip c₁) with
      | none =>
          rw [hc, ← hskip] at hend
          exact .seqRight hps (between_free d) hend
      | some c' =>
          rw [hc, ← hskip] at hend
          refine ⟨_, .seq hps (between_free d) hend, ?_⟩
          rwa [List.append_nil]

theorem contents_turn (h : LineRule read e walk fault) (c : Cursor) :
    Turn (Rule.oneOf (.seq e (.rule .lineEnd)) [Rule.newline, .rule .blockLevelCatchAll])
      (LineTrees read walk) c := by
  have hlength := skip_length c
  have hline := wholeLine_follows h (skip c)
  have hbreak := newline_follows (m := .free) (skip c)
  -- a line with its end, else a line break, else a line that is nothing else, else nothing
  cases hwhole : wholeLine read (skip c) with
  | some r =>
      rw [hwhole] at hline
      obtain ⟨ps, hps, t, rfl, ht, hwalk⟩ := hline
      have hlt := wholeLine_length h hwhole
      obtain ⟨s, hp⟩ := hps.passes
      exact .inr ⟨[t], _, .first hps, by omega, fun ts c' hts =>
        .line hwhole ht hwalk hp (hp.ne_nil hlt) hts⟩
  | none =>
      rw [hwhole] at hline
      cases hb : lineBreak (skip c) with
      | some r =>
          rw [hb] at hbreak
          obtain ⟨ps, hps, rfl⟩ := hbreak
          have hlt := lineBreak_length hb
          exact .inr ⟨[], _, .second hline (.first hps), by omega, fun ts c' hts =>
            .blank hwhole hb hts⟩
      | none =>
          rw [hb] at hbreak
          by_cases hend : lineEnd (skip c) = none
          · have hstray := recognizes_blockLevelCatchAll.leaf (m := .free) (c := skip c) rfl
              (by decide) (if_pos hend)
            have hlt := behindLine_length_of_lineEnd hend
            exact .inr ⟨_, _, .second hline (.second hbreak hstray), by omega, fun ts c' hts =>
              .stray hwhole hend hts⟩
          · have hnone := recognizes_blockLevelCatchAll.leafNone (m := .free) (c := skip c) rfl
              (if_neg hend)
            exact .inl ⟨.second hline (.second hbreak hnone),
              .stop hwhole hb (Option.isSome_iff_ne_none.mpr hend)⟩

/-- **The contents of a block leave the pairs of its lines.** -/
theorem contents_matches (h : LineRule read e walk fault) (c : Cursor) :
    ∃ ts d, Matches datamodel .free (Rule.contents e) (skip c) (some (ts, d)) ∧
      LineTrees read walk c ts (skip d) :=
  many_turns fun d _ => contents_turn h d

/-- The pairs of the lines begin one behind the other, behind the blanks before the first. -/
theorem LineTrees.laid (h : LineTrees read walk c ts c') : Laid (skip c) ts c' := by
  induction h with
  | @line c c₁ _ _ _ _ _ _ ht _ hp hne _ ih =>
      obtain ⟨s, hs, -⟩ := skip_spells c₁
      exact .cons (.refl _) ht hp hne (ih.behind hs)
  | @blank c c₁ _ _ _ hbreak _ ih =>
      obtain ⟨x, u, -, -, hp⟩ := lineBreak_eq_some hbreak
      obtain ⟨s, hs, -⟩ := skip_spells c₁
      exact ih.behind (hp.trans hs)
  | @stray c _ _ _ _ _ hend _ ih =>
      obtain ⟨u, hp⟩ := behindLine_passes (skip c)
      obtain ⟨s, hs, -⟩ := skip_spells (behindLine (skip c))
      exact .cons (.refl _) rfl hp (hp.ne_nil (behindLine_length_of_lineEnd hend)) (ih.behind hs)
  | stop => exact .nil (.refl _)

theorem LineTrees.passes (h : LineTrees read walk c ts c') : ∃ s, c.Passes s c' := by
  obtain ⟨s, hs, -⟩ := skip_spells c
  exact (h.laid.behind hs).passes

/-- The lines end before a closing brace or at the end of the text. -/
theorem LineTrees.ends (h : LineTrees read walk c ts c') :
    c'.rest = [] ∨ ∃ rest, c'.rest = '}' :: rest := by
  induction h with
  | line _ _ _ _ _ _ ih => exact ih
  | blank _ _ _ ih => exact ih
  | stray _ _ _ ih => exact ih
  | stop hwhole hbreak hend =>
      obtain ⟨d, hd⟩ := Option.isSome_iff_exists.mp hend
      rcases lineEnd_cases hd with ⟨hnil, -⟩ | ⟨hbrace, -⟩ | h
      · exact .inl hnil
      · exact .inr hbrace
      · rw [h] at hbreak
        cases hbreak

/-- **The pairs of the lines are walked to what the reader reads.** -/
theorem LineTrees.walk_eq {S : Position → α → List Char → Prop} (hread : LineReader read S)
    (h : LineRule read e walk fault) (hts : LineTrees read walk c ts c') :
    Walk.lines walk ts = Walk.ofChecked ((linesFrom read fault c).map Prod.fst) ∧
      ∀ as d, linesFrom read fault c = .ok (as, d) → d = c' := by
  induction hts with
  | @line c c₁ c' b t ts s hwhole ht hwalk _ _ _ ih =>
      rw [Walk.lines, hwalk, ih.1]
      cases b with
      | error e =>
          rw [hread.linesFrom_eq fault c, linesStep, hwhole]
          exact ⟨rfl, fun _ _ h => by cases h⟩
      | ok a =>
          rw [hread.linesFrom_item fault hwhole]
          cases hlines : linesFrom read fault c₁ with
          | error e => exact ⟨rfl, fun _ _ h => by cases h⟩
          | ok r =>
              refine ⟨rfl, fun as d h => ?_⟩
              cases h
              exact ih.2 _ _ hlines
  | blank hwhole hbreak _ ih =>
      rw [hread.linesFrom_eq, linesStep, hwhole, hbreak]
      exact ih
  | stray hwhole hend _ _ =>
      rw [hread.linesFrom_eq, linesStep, hwhole, lineBreak_of_lineEnd hend, hend, Walk.lines,
        h.stray]
      exact ⟨rfl, fun _ _ h => by cases h⟩
  | stop hwhole hbreak hend =>
      rw [hread.linesFrom_eq, linesStep, hwhole, hbreak, hend]
      refine ⟨rfl, fun as d h => ?_⟩
      cases h
      rfl

end Lines

end SchemaEnums.Schema
