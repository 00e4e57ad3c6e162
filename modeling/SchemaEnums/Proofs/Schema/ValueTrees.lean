import SchemaEnums.Proofs.Schema.Walk
import SchemaEnums.Proofs.Schema.WordTrees

/-!
# Schema — ValueTrees

The rules for values, arguments and attributes go where the readers go, and the pairs they leave
are walked to the values that are read.

Blanks may stand between the parts of a rule, and a repetition gives back those behind its last
occurrence.  A reader passes the blanks before a word, the rules those behind one; so their places
agree up to `skip`, and up to `gap` inside brackets.
-/

namespace SchemaEnums.Schema
open Text Text.Peg Text.Reader Grammar

variable {α : Type} {c c₁ c' : Cursor} {m : Mode} {e f : Pattern Rule}

/-! ### Where blanks stand between -/

theorem seq_free {ps : List Rule.Tree} {x : Option (List Rule.Tree × Cursor)}
    (he : Matches datamodel .free e c (some (ps, c₁))) (hf : Matches datamodel .free f (skip c₁) x) :
    Matches datamodel .free (.seq e f) c (x.map fun r => (ps ++ r.1, r.2)) := by
  cases x with
  | none => exact .seqRight he (between_free c₁) hf
  | some r => exact .seq he (between_free c₁) hf

/-- The pairs of a second part stand behind those of the first. -/
theorem follows_behind {stands : α → List Rule.Tree → Prop} {ps : List Rule.Tree}
    {x : Option (α × Cursor)} (he : Matches datamodel .free e c (some (ps, c₁)))
    (hf : Follows datamodel .free f stands (skip c₁) x) :
    Follows datamodel .free (.seq e f) (fun a qs => ∃ rs, qs = ps ++ rs ∧ stands a rs) c x := by
  cases x with
  | none => exact .seqRight he (between_free c₁) hf
  | some r =>
      obtain ⟨rs, hrs, hstands⟩ := hf
      exact ⟨_, .seq he (between_free c₁) hrs, rs, rfl, hstands⟩

/-- What a repetition does at a place, given what one turn of it does: the turn refuses and `T` ends
with no pairs, or the turn leaves pairs and `T` goes on behind it. -/
def Turn (e : Pattern Rule) (T : Cursor → List Rule.Tree → Cursor → Prop) (c : Cursor) : Prop :=
  (Matches datamodel .free e (skip c) none ∧ T c [] (skip c)) ∨
    ∃ ps c₁, Matches datamodel .free e (skip c) (some (ps, c₁)) ∧
      c₁.rest.length < c.rest.length ∧ ∀ ts c', T c₁ ts c' → T c (ps ++ ts) c'

section Many

variable {T : Cursor → List Rule.Tree → Cursor → Prop}

theorem more_turns (h : ∀ d : Cursor, d.rest.length ≤ c.rest.length → Turn e T d) :
    ∃ ts d, Matches datamodel .free (.more e) c (some (ts, d)) ∧ T c ts (skip d) := by
  induction hn : c.rest.length using Nat.strongRecOn generalizing c with
  | ind n ih =>
      subst hn
      rcases h c (Nat.le_refl _) with ⟨hnone, hT⟩ | ⟨ps, c₁, hps, hlt, hT⟩
      · exact ⟨[], c, .moreNone (between_free c) hnone, hT⟩
      · obtain ⟨ts, d, hts, hmore⟩ := ih _ hlt (fun d hd => h d (by omega)) rfl
        exact ⟨ps ++ ts, d, .more (between_free c) hps hts, hT _ _ hmore⟩

/-- **A repetition takes one turn after another**, and what it gives back at its end is passed
again. -/
theorem many_turns (h : ∀ d : Cursor, d.rest.length ≤ c.rest.length → Turn e T d) :
    ∃ ts d, Matches datamodel .free (.many e) (skip c) (some (ts, d)) ∧ T c ts (skip d) := by
  rcases h c (Nat.le_refl _) with ⟨hnone, hT⟩ | ⟨ps, c₁, hps, hlt, hT⟩
  · exact ⟨[], skip c, .manyNone hnone, by rwa [skip_skip]⟩
  · obtain ⟨ts, d, hts, hmore⟩ := more_turns (c := c₁) fun d hd => h d (by omega)
    exact ⟨ps ++ ts, d, .many hps hts, hT _ _ hmore⟩

/-- A repetition finds what a loop finds, and ends where the loop ends, up to blanks. -/
theorem many_follows {read : Reader α} {stands : α → List Rule.Tree → Prop}
    (on : GetsOn skip read) (h : ∀ d : Cursor, d.rest.length ≤ c.rest.length →
      Follows datamodel .free e stands (skip d) (read (skip d))) :
    ∃ ps c', Matches datamodel .free (.many e) (skip c) (some (ps, c')) ∧
      skip c' = skip (many skip read c).2 ∧ Each stands (many skip read c).1 ps := by
  refine many_turns (T := fun c ps c' =>
    c' = skip (many skip read c).2 ∧ Each stands (many skip read c).1 ps) fun d hd => ?_
  have hturn := h d hd
  cases hr : read (skip d) with
  | none =>
      rw [hr] at hturn
      refine .inl ⟨hturn, ?_⟩
      dsimp only
      rw [many_of_none hr]
      exact ⟨rfl, .nil⟩
  | some r =>
      rw [hr] at hturn
      obtain ⟨ps, hps, hstands⟩ := hturn
      refine .inr ⟨ps, _, hps, on hr, fun ts c' hT => ?_⟩
      dsimp only
      rw [many_of_some on hr]
      exact ⟨hT.1, .cons hstands hT.2⟩

end Many

/-! ### Gaps -/

theorem newline_follows (c : Cursor) :
    Follows datamodel m Rule.newline (fun _ ps => ps = []) c (lineBreak c) := by
  cases h : lineBreak c with
  | none => exact recognizes_newline.of_none (by rw [h, Option.map_none])
  | some r => exact ⟨[], recognizes_newline.of_some (by rw [h, Option.map_some]), rfl⟩

theorem eq_nil_of_each {as : List α} {ps : List Rule.Tree} (h : Each (fun _ ps => ps = []) as ps) :
    ps = [] := by
  induction h with
  | nil => rfl
  | cons h _ ih => rw [h, ih, List.append_nil]

/-- Behind line breaks a pattern begins where the gap ends. -/
theorem seq_gap {x : Option (List Rule.Tree × Cursor)} (hf : Matches datamodel .free f (gap c) x) :
    Matches datamodel .free (.seq (.many Rule.newline) f) (skip c) x := by
  obtain ⟨ps, c', hmany, hskip, heach⟩ :=
    many_follows (c := c) lineBreak_getsOn fun d _ => newline_follows (skip d)
  obtain rfl := eq_nil_of_each heach
  have hseq := seq_free hmany (f := f) (x := x) (by rw [hskip]; exact hf)
  simpa using hseq

theorem skip_gap (c : Cursor) : skip (gap c) = gap c := skip_skip _

theorem gap_gap (c : Cursor) : gap (gap c) = gap c := by
  induction hn : c.rest.length using Nat.strongRecOn generalizing c with
  | ind n ih =>
      subst hn
      cases h : lineBreak (skip c) with
      | none => rw [gap_of_none h, gap_skip, gap_of_none h]
      | some r => rw [gap_of_some h]; exact ih _ (lineBreak_getsOn h) _ rfl

/-! ### Lists -/

section Lists

variable {opening closing : Char} {item : Reader α} {S : Position → α → List Char → Prop}
  {stands : α → List Rule.Tree → Prop}

theorem comma_follows (h : ∀ d : Cursor, d.rest.length < c.rest.length →
      Follows datamodel .free e stands (gap d) (item (gap d))) :
    Follows datamodel .free
      (Rule.inOrder [.many Rule.newline, Rule.one ',', .many Rule.newline, e]) stands (skip c)
      (afterComma item (gap c)) := by
  rw [afterComma]
  cases hcomma : (gap c).eat? [','] with
  | none => exact seq_gap (.seqLeft (.terminalNone hcomma))
  | some d =>
      have hlt := eat?_length hcomma
      have hgap := gap_length c
      have hitem := h d (by omega)
      have hone := one_matches (m := .free) hcomma
      show Follows _ _ _ _ _ (item (gap d))
      cases hr : item (gap d) with
      | none =>
          rw [hr] at hitem
          exact seq_gap (seq_free (x := none) hone (seq_gap hitem))
      | some r =>
          rw [hr] at hitem
          obtain ⟨ps, hps, hstands⟩ := hitem
          exact ⟨ps, seq_gap (seq_free hone (seq_gap hps)), hstands⟩

theorem many_congr {between between' : Cursor → Cursor} {read read' : Reader α}
    (h : ∀ c, read (between c) = read' (between' c)) : many between read = many between' read' := by
  have hwithin : ∀ (bound : List Char) (c : Cursor),
      manyWithin between read bound c = manyWithin between' read' bound c := by
    intro bound
    induction bound with
    | nil => exact fun c => rfl
    | cons x bound ih =>
        intro c
        simp only [manyWithin, h, ih]
  exact funext fun c => hwithin c.rest c

theorem items_follows {a : α} {c₂ : Cursor} (spells : Spells item S)
    (h : ∀ d : Cursor, d.rest.length ≤ c.rest.length →
      Follows datamodel .free e stands (gap d) (item (gap d)))
    (hr : item (gap c) = some (a, c₂)) :
    ∃ ps c₃, Matches datamodel .free (Rule.items e) (gap c) (some (ps, c₃)) ∧
      gap c₃ = gap (((gap (many gap (afterComma item) c₂).2).eat? [',']).getD
        (many gap (afterComma item) c₂).2) ∧
      Each stands (a :: (many gap (afterComma item) c₂).1) ps := by
  have hc := h c (Nat.le_refl _)
  rw [hr] at hc
  obtain ⟨ps, hps, hstands⟩ := hc
  obtain ⟨t, hp, -⟩ := spells hr
  have hlength := hp.length
  have hgap := gap_length c
  -- a comma is looked for behind a gap, whether or not blanks before the gap have been passed
  have hmany : many skip (fun d => afterComma item (gap d)) = many gap (afterComma item) :=
    many_congr fun d => by rw [gap_skip]
  have on : GetsOn skip fun d => afterComma item (gap d) := fun d a d' hd =>
    afterComma_getsOn spells (by
      dsimp only at hd
      rwa [gap_skip] at hd)
  have hcomma : ∀ d : Cursor, d.rest.length ≤ c₂.rest.length → Follows datamodel .free
      (Rule.inOrder [.many Rule.newline, Rule.one ',', .many Rule.newline, e]) stands (skip d)
      (afterComma item (gap (skip d))) := fun d hd => by
    rw [gap_skip]
    exact comma_follows fun d' hd' => h d' (by omega)
  obtain ⟨qs, c₃, hqs, hskip, heach⟩ := many_follows on hcomma
  rw [hmany] at hskip heach
  generalize (many gap (afterComma item) c₂).2 = d at hskip ⊢
  have hend : Matches datamodel .free (.option (Rule.one ',')) (gap d)
      (some ([], ((gap d).eat? [',']).getD (gap d))) :=
    (recognizes_terminal (.text [','])).option (gap d)
  have hitems := seq_free hps (seq_free hqs (by rw [hskip]; exact seq_gap hend))
  refine ⟨_, _, hitems, ?_, ?_⟩
  · cases (gap d).eat? [','] with
    | none => exact gap_gap d
    | some d' => rfl
  · show Each stands _ (ps ++ (qs ++ []))
    rw [List.append_nil]
    exact .cons hstands heach

theorem listed_matches (closing : Char) {ps : List Rule.Tree} {c₃ : Cursor}
    (hopen : c.eat? [opening] = some c₁)
    (hitems : Matches datamodel .free (.option (Rule.items e)) (gap c₁) (some (ps, c₃))) :
    Matches datamodel .free (Rule.listed opening closing e) c
      (((gap c₃).eat? [closing]).map (ps, ·)) := by
  have hone := one_matches (m := .free) hopen
  have hclose : Matches datamodel .free (.seq (.many Rule.newline) (Rule.one closing)) (skip c₃)
      (((gap c₃).eat? [closing]).map ([], ·)) :=
    seq_gap (recognizes_terminal (.text [closing]) (gap c₃))
  have hlist := seq_free hone (seq_gap (seq_free hitems hclose))
  simp only [Function.comp_def, Option.map_map, List.nil_append, List.append_nil] at hlist
  exact hlist

theorem bracketed_of_none (hopen : c.eat? [opening] = some c₁) (hr : item (gap c₁) = none) :
    bracketed opening closing item c = ((gap c₁).eat? [closing]).map ([], ·) := by
  simp only [bracketed, listed, hopen, hr, Option.bind_eq_bind, Option.bind_some]
  cases (gap c₁).eat? [closing] <;> rfl

theorem bracketed_of_some {a : α} {c₂ : Cursor} (hopen : c.eat? [opening] = some c₁)
    (hr : item (gap c₁) = some (a, c₂)) : bracketed opening closing item c =
      ((gap (((gap (many gap (afterComma item) c₂).2).eat? [',']).getD
        (many gap (afterComma item) c₂).2)).eat? [closing]).map
          (a :: (many gap (afterComma item) c₂).1, ·) := by
  simp only [bracketed, listed, hopen, hr, Option.bind_eq_bind, Option.bind_some]
  exact Option.map_eq_bind.symm

/-- **A list in brackets leaves what its items leave.** -/
theorem listed_follows (opening closing : Char) (spells : Spells item S)
    (h : ∀ d : Cursor, d.rest.length < c.rest.length →
      Follows datamodel .free e stands (gap d) (item (gap d))) :
    Follows datamodel .free (Rule.listed opening closing e) (Each stands) c
      (bracketed opening closing item c) := by
  cases hopen : c.eat? [opening] with
  | none =>
      simp only [bracketed, listed, hopen, Option.bind_eq_bind, Option.bind_none]
      exact .seqLeft (.terminalNone hopen)
  | some c₁ =>
      have hlt := eat?_length hopen
      cases hr : item (gap c₁) with
      | none =>
          have hitem := h c₁ hlt
          rw [hr] at hitem
          have hlist := listed_matches closing hopen (.optionNone (.seqLeft hitem))
          rw [gap_gap] at hlist
          rw [bracketed_of_none hopen hr]
          exact follows_of_matches hlist .nil
      | some r =>
          obtain ⟨a, c₂⟩ := r
          obtain ⟨ps, c₃, hitems, hgap, heach⟩ :=
            items_follows spells (fun d hd => h d (by omega)) hr
          have hlist := listed_matches closing hopen (.option hitems)
          rw [hgap] at hlist
          rw [bracketed_of_some hopen hr]
          exact follows_of_matches hlist heach

end Lists

/-! ### Walks -/

/-- The pairs are one of the rule, and its parts are walked to what was read. -/
def Says (r : Rule) (walk : List Rule.Tree → Walk.Walked α) (b : Checked α)
    (ps : List Rule.Tree) : Prop :=
  ∃ p text parts, ps = [⟨r, p, text, parts⟩] ∧ walk parts = Walk.ofChecked b

theorem says_of_body {r : Rule} {walk : List Rule.Tree → Walk.Walked α} {inside : Mode}
    {x : Option (Checked α × Cursor)}
    (h : Follows datamodel inside (datamodel.body r)
      (fun b ps => walk ps = Walk.ofChecked b) c x)
    (hinside : (datamodel.kind r).inside m = inside)
    (hleaves : (datamodel.kind r).leaves m = true) :
    Follows datamodel m (.rule r) (Says r walk) c x :=
  (h.rule hinside hleaves).imp fun _ _ ⟨text, parts, hps, hwalk⟩ => ⟨_, text, parts, hps, hwalk⟩

/-- Pairs that are walked one after another say all of what was read, or its first fault. -/
theorem walk_all (walks : List Rule.Tree → Walk.Walked (List α)) {r : Rule}
    {walk : List Rule.Tree → Walk.Walked α} (nil : walks [] = .ok [])
    (cons : ∀ r p text parts rest, walks (⟨r, p, text, parts⟩ :: rest) = do
      let a ← walk parts
      let as ← walks rest
      .ok (a :: as))
    {bs : List (Checked α)} {ps : List Rule.Tree} (h : Each (Says r walk) bs ps) :
    walks ps = Walk.ofChecked (Checked.all bs) := by
  induction h with
  | nil => exact nil
  | @cons b bs _ ps h _ ih =>
      obtain ⟨p, text, parts, rfl, hwalk⟩ := h
      rw [List.singleton_append, cons, hwalk, ih]
      cases b with
      | error e => rfl
      | ok a => cases hall : Checked.all bs <;> rw [Checked.all, hall] <;> rfl

/-! ### Values -/

/-- The pair of a value. -/
def IsValue (b : Checked Expression) (ps : List Rule.Tree) : Prop :=
  ∃ t, ps = [t] ∧ Walk.value t = Walk.ofChecked b

/-- The pair of an expression. -/
abbrev IsExpression : Checked Expression → List Rule.Tree → Prop := Says .expression Walk.expression

/-- The pair of an argument. -/
abbrev IsArgument : Checked Argument → List Rule.Tree → Prop :=
  Says .argument (Walk.argument none none)

theorem IsValue.expression {b : Checked Expression} {ps : List Rule.Tree} (h : IsValue b ps) :
    Walk.expression ps = Walk.ofChecked b := by
  obtain ⟨t, rfl, hwalk⟩ := h
  rw [Walk.expression, hwalk]

theorem walk_argument (name : Option String) {b : Checked Expression} {ps : List Rule.Tree}
    (h : IsExpression b ps) :
    Walk.argument name none ps = Walk.ofChecked (b.map (.mk name)) := by
  obtain ⟨p, text, parts, rfl, hwalk⟩ := h
  rw [Walk.argument, hwalk]
  cases b with
  | error e => rfl
  | ok v => exact Walk.argument.eq_1 ..

section Values

variable {value : Reader (Checked Expression)}

/-- An argument behind its label, or without one. -/
theorem argument_behind {label : List Rule.Tree} {name : Option String}
    {x : Option (Checked Expression × Cursor)}
    (hlabel : Matches datamodel .free (.option (.seq (.rule .argumentName) (Rule.one ':'))) c
      (some (label, c₁)))
    (hwalk : ∀ ps, Walk.argument none none (label ++ ps) = Walk.argument name none ps)
    (hvalue : Follows datamodel .free (.rule .expression) IsExpression (skip c₁) x) :
    Follows datamodel .free (.rule .argument) IsArgument c
      (x.map fun (v, c') => (v.map (.mk name), c')) := by
  have hbody : Follows datamodel .free (datamodel.body .argument)
      (fun b ps => Walk.argument none none ps = Walk.ofChecked b) c
      (x.map fun (v, c') => (v.map (.mk name), c')) :=
    (follows_behind hlabel hvalue).map (f := Except.map (Argument.mk name)) fun v ps h => by
      obtain ⟨rs, rfl, hrs⟩ := h
      rw [hwalk, walk_argument name hrs]
  exact says_of_body hbody rfl rfl

theorem argument_follows (hc : skip c = c)
    (h : ∀ d : Cursor, d.rest.length ≤ c.rest.length →
      Follows datamodel .free (.rule .expression) IsExpression d (value d)) :
    Follows datamodel .free (.rule .argument) IsArgument c (argument value c) := by
  have hname := identifier_follows (m := .free) (by decide) c
  -- without a name the rule goes back and reads the value where the argument begins
  have hbare : argumentName c = none →
      Matches datamodel .free (.seq (.rule .argumentName) (Rule.one ':')) c none →
      Follows datamodel .free (.rule .argument) IsArgument c (argument value c) := by
    intro hnone hlabel
    have hread : argument value c = (value c).map fun (v, c') => (v.map (.mk none), c') := by
      simp only [argument, hnone]
      cases value c <;> rfl
    rw [hread]
    exact argument_behind (.optionNone hlabel) (fun ps => rfl) (by
      rw [hc]
      exact h c (Nat.le_refl _))
  cases hi : identifier c with
  | none =>
      rw [hi] at hname
      exact hbare (by simp only [argumentName, hi, Option.bind_eq_bind, Option.bind_none])
        (.seqLeft (.ruleNone hname))
  | some r =>
      obtain ⟨i, c₁⟩ := r
      rw [hi] at hname
      obtain ⟨ps, hps, -⟩ := hname
      have hp := (identifier_eq_some_iff.mp hi).2.1
      have hpair := hps.leaves (m := .free) (r := Rule.argumentName) rfl rfl
      rw [passed_of_passes hp] at hpair
      cases hcolon : (skip c₁).eat? [':'] with
      | none =>
          exact hbare (by simp only [argumentName, hi, hcolon, Option.bind_eq_bind, Option.bind_some,
              Option.bind_none])
            (.seqRight hpair (between_free c₁) (.terminalNone hcolon))
      | some c₂ =>
          have hread : argument value c =
              (value (skip c₂)).map fun (v, c') => (v.map (.mk (some i.name)), c') := by
            simp only [argument, argumentName, hi, hcolon, Option.bind_eq_bind, Option.bind_some]
            cases value (skip c₂) <;> rfl
          have h₁ := hp.length
          have h₂ := skip_length c₁
          have h₃ := eat?_length hcolon
          have h₄ := skip_length c₂
          rw [hread]
          exact argument_behind (.option (.seq hpair (between_free c₁) (.terminal hcolon)))
            (fun qs => by
              rw [List.append_nil, List.singleton_append, Walk.argument, String.ofList_toList])
            (h _ (by omega))

theorem argumentsList_follows (spells : SpellsValues value)
    (h : ∀ d : Cursor, d.rest.length < c.rest.length →
      Follows datamodel .free (.rule .expression) IsExpression d (value d)) :
    Follows datamodel m (.rule .argumentsList) (Says .argumentsList Walk.argumentsList) c
      ((bracketed '(' ')' (argument value) c).map fun (bs, c') => (Checked.all bs, c')) := by
  have hlist := listed_follows (c := c) '(' ')' (argument_spells spells)
    fun d hd => argument_follows (skip_gap d) fun d' hd' => h d' (by
      have := gap_length d
      omega)
  exact says_of_body (hlist.map fun bs ps heach =>
    walk_all Walk.argumentsList rfl (fun _ _ _ _ _ => rfl) heach) rfl rfl

theorem array_follows (spells : SpellsValues value)
    (h : ∀ d : Cursor, d.rest.length < c.rest.length →
      Follows datamodel .free (.rule .expression) IsExpression d (value d)) :
    Follows datamodel .free (.rule .arrayExpression) IsValue c (array value c) := by
  have hlist := listed_follows (c := c) '[' ']' spells fun d hd =>
    h (gap d) (by
      have := gap_length d
      omega)
  have hread : array value c =
      (bracketed '[' ']' value c).map fun r => ((Checked.all r.1).map .array, r.2) := by
    rw [array]
    cases bracketed '[' ']' value c <;> rfl
  rw [hread]
  refine (Follows.rule (r := Rule.arrayExpression) (m := .free) hlist rfl rfl).map
    (f := fun bs => (Checked.all bs).map Expression.array) fun bs ps h => ?_
  obtain ⟨text, parts, rfl, heach⟩ := h
  refine ⟨_, rfl, ?_⟩
  rw [Walk.value, walk_all Walk.elements rfl (fun _ _ _ _ _ => rfl) heach,
    Walk.ofChecked_map]

theorem call_follows (spells : SpellsValues value)
    (h : ∀ d : Cursor, d.rest.length < c.rest.length →
      Follows datamodel .free (.rule .expression) IsExpression d (value d)) :
    Follows datamodel .free (.rule .functionCall) IsValue c (call value c) := by
  have hpath := dotted_follows (r := .path) (m := .free) rfl rfl (by decide) c
  cases hr : path c with
  | none =>
      rw [hr] at hpath
      simp only [call, hr, Option.bind_eq_bind, Option.bind_none]
      exact .ruleNone (.seqLeft hpath)
  | some r =>
      obtain ⟨name, c₁⟩ := r
      rw [hr] at hpath
      obtain ⟨_, hps, rfl⟩ := hpath
      obtain ⟨t, hp, -⟩ := path_spells hr
      have h₁ := hp.length
      have h₂ := skip_length c₁
      have hlist := argumentsList_follows (m := .free) (c := skip c₁) spells fun d hd =>
        h d (by omega)
      have hcall := (follows_behind hps hlist).rule (m := .free) (r := Rule.functionCall) rfl rfl
      have hread : call value c = ((bracketed '(' ')' (argument value) (skip c₁)).map
          fun r => (Checked.all r.1, r.2)).map fun r => (r.1.map (.call name), r.2) := by
        simp only [call, hr, Option.bind_eq_bind, Option.bind_some, Option.map_map]
        cases bracketed '(' ')' (argument value) (skip c₁) <;> rfl
      rw [hread]
      refine hcall.map fun b ps hps => ?_
      obtain ⟨_, _, rfl, _, rfl, _, _, parts, rfl, hwalk⟩ := hps
      refine ⟨_, rfl, ?_⟩
      rw [Walk.value, List.singleton_append, Walk.call, Walk.call, hwalk, String.ofList_toList]
      cases b with
      | error e => rfl
      | ok as => exact Walk.call.eq_1 ..

/-- **The choice between values.** -/
theorem expression_step (spells : SpellsValues value)
    (h : ∀ d : Cursor, d.rest.length < c.rest.length →
      Follows datamodel .free (.rule .expression) IsExpression d (value d)) :
    Follows datamodel .free (.rule .expression) IsExpression c
      (call value c <|> array value c <|>
        ((number c).map fun (text, c) => (.ok (.number text), c)) <|>
        ((string c).map fun (text, c) => (text.map .string, c)) <|>
        ((path c).map fun (name, c) => (.ok (.constant name), c))) := by
  have hnumber : Follows datamodel .free (.rule .numericLiteral) IsValue c
      ((number c).map fun (text, c) => (.ok (.number text), c)) :=
    (number_follows c).map (f := fun text => Except.ok (Expression.number text))
      fun text ps hps => ⟨_, hps, by
        rw [Walk.value, String.ofList_toList]
        rfl⟩
  have hstring : Follows datamodel .free (.rule .stringLiteral) IsValue c
      ((string c).map fun (text, c) => (text.map .string, c)) := by
    have hread : (string c).map (fun (text, c) => (text.map Expression.string, c)) =
        (stringBody c).map fun r => ((((Literal.decode r.1.1).map String.ofList).mapError
          (⟨r.1.2, ·⟩)).map Expression.string, r.2) := by
      rw [string]
      cases stringBody c <;> rfl
    rw [hread]
    refine (stringLiteral_follows .free c).map (f := fun b => (((Literal.decode b.1).map
      String.ofList).mapError (SyntaxError.mk b.2)).map Expression.string) fun b ps hps => ?_
    obtain ⟨_, rfl, p, text, rfl⟩ := hps
    exact ⟨_, rfl, by rw [Walk.value, Walk.string, Walk.ofChecked_map]⟩
  have hpath : Follows datamodel .free (.rule .path) IsValue c
      ((path c).map fun (name, c) => (.ok (.constant name), c)) :=
    (dotted_follows rfl rfl (by decide) c).map
      (f := fun name => Except.ok (Expression.constant name)) fun name ps hps => ⟨_, hps, by
        rw [Walk.value, String.ofList_toList]
        rfl⟩
  -- in the order in which the rule tries them
  exact says_of_body (((call_follows spells h).choice ((array_follows spells h).choice
    (hnumber.choice (hstring.choice hpath)))).imp fun b ps hps => hps.expression) rfl rfl

end Values

theorem expressionWithin_follows (bound : List Char) : ∀ c : Cursor,
    c.rest.length ≤ bound.length → Follows datamodel .free (.rule .expression) IsExpression c
      (expressionWithin bound c) := by
  induction bound with
  | nil =>
      intro c hc
      -- at the end of the text there is no value, however many brackets may open
      have hnil : c.rest = [] := List.length_eq_zero_iff.mp (Nat.le_zero.mp hc)
      have hstep : Follows datamodel .free (.rule .expression) IsExpression c
          (expressionWithin [' '] c) := expression_step (expressionWithin_spells []) fun d hd => by
        rw [hnil] at hd
        cases hd
      rwa [expressionWithin_refuses stops_nil _ c hnil] at hstep
  | cons x bound ih =>
      intro c hc
      exact expression_step (expressionWithin_spells bound) fun d hd => ih d (by
        rw [List.length_cons] at hc
        omega)

/-- **An expression is walked to the value that is read.** -/
theorem expression_follows (c : Cursor) :
    Follows datamodel .free (.rule .expression) IsExpression c (expression c) :=
  expressionWithin_follows c.rest c (Nat.le_refl _)

/-! ### Attributes -/

theorem arguments_follows (c : Cursor) : Follows datamodel m (.rule .argumentsList)
    (Says .argumentsList Walk.argumentsList) c (arguments c) := by
  have hread : arguments c =
      (bracketed '(' ')' (argument expression) c).map fun (bs, c') => (Checked.all bs, c') := by
    rw [arguments]
    cases bracketed '(' ')' (argument expression) c <;> rfl
  rw [hread]
  exact argumentsList_follows expression_spells fun d _ => expression_follows d

/-- An attribute's marker and path stand together, and so do its path and its arguments. -/
theorem attribute_body_follows {r : Rule} {marker : List Char} (hbody : datamodel.body r =
      Rule.inOrder [.terminal (.text marker), .rule .attributePath, .option (.rule .argumentsList)])
    (c : Cursor) : Follows datamodel .compound (datamodel.body r)
      (fun b ps => Walk.attributeOf ps = Walk.ofChecked b) c (attributeAfter marker c) := by
  have htight : ∀ c, Matches datamodel .atomic (datamodel.between .compound) c (some ([], c)) :=
    between_tight (by decide)
  rw [hbody, attributeAfter]
  cases hmarker : c.eat? marker with
  | none => exact .seqLeft (.terminalNone hmarker)
  | some c₁ =>
      have hpath := dotted_follows (r := .attributePath) (m := .compound) rfl rfl (by decide) c₁
      simp only [Option.bind_eq_bind, Option.bind_some]
      cases hname : path c₁ with
      | none =>
          rw [hname] at hpath
          exact .seqRight (.terminal hmarker) (htight _) (.seqLeft hpath)
      | some r =>
          obtain ⟨name, c₂⟩ := r
          rw [hname] at hpath
          obtain ⟨_, hps, rfl⟩ := hpath
          have hargs := arguments_follows (m := .compound) c₂
          simp only [Option.bind_some]
          cases ha : arguments c₂ with
          | none =>
              rw [ha] at hargs
              -- no arguments follow the path
              refine ⟨_, .seq (.terminal hmarker) (htight _)
                (.seq hps (htight _) (.optionNone hargs)), ?_⟩
              show Walk.attributeOf [⟨.attributePath, _, name.toList, []⟩] = _
              rw [Walk.attributeOf, List.foldlM_cons, Walk.attributePart, String.ofList_toList]
              rfl
          | some r =>
              obtain ⟨b, c₃⟩ := r
              rw [ha] at hargs
              obtain ⟨_, hqs, _, _, parts, rfl, hwalk⟩ := hargs
              refine ⟨_, .seq (.terminal hmarker) (htight _)
                (.seq hps (htight _) (.option hqs)), ?_⟩
              show Walk.attributeOf [⟨.attributePath, _, name.toList, []⟩, _] = _
              rw [Walk.attributeOf, List.foldlM_cons, Walk.attributePart, String.ofList_toList]
              show List.foldlM Walk.attributePart ⟨name, []⟩ _ = _
              rw [List.foldlM_cons, Walk.attributePart, hwalk]
              cases b <;> rfl

theorem attribute_follows (c : Cursor) : Follows datamodel .free (.rule .fieldAttribute)
    (Says .fieldAttribute Walk.attributeOf) c (attributeAfter ['@'] c) :=
  says_of_body (attribute_body_follows rfl c) rfl rfl

end SchemaEnums.Schema
