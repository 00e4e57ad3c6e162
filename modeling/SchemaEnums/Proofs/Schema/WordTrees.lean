import SchemaEnums.Proofs.Schema.Exact
import SchemaEnums.Proofs.Schema.Rules

/-!
# Schema — WordTrees

The rules for words and for what stands between them recognize what the readers read.
-/

namespace SchemaEnums.Schema
open Text Text.Peg Text.Reader Grammar Literal

variable {c c' : Cursor} {m : Mode}

theorem recognizes_one (x : Char) :
    Recognizes datamodel m (Rule.one x) (Terminal.char (· == x)).read :=
  (recognizes_terminal (.text [x])).congr fun c => eat?_one c x

theorem one_matches {x : Char} (h : c.eat? [x] = some c') :
    Matches datamodel m (Rule.one x) c (some ([], c')) := .terminal h

theorem eat?_length {x : Char} (h : c.eat? [x] = some c') : c'.rest.length < c.rest.length := by
  have hlength := (Cursor.eat?_passes h).length
  simp only [List.length_cons, List.length_nil] at hlength
  omega

/-! ### Between words -/

theorem lineBreak_isSome {x : Char} {rest : List Char} (hc : c.rest = x :: rest) :
    (lineBreak c).isSome = isLineBreak x := by
  rw [lineBreak]
  split
  case h_1 hc' => rw [hc] at hc'; cases hc'; rfl
  case h_2 hc' =>
    rw [hc] at hc'
    cases hc'
    cases isLineBreak x <;> rfl
  case h_3 hc' => rw [hc] at hc'; cases hc'

theorem recognizes_newline :
    Recognizes datamodel m Rule.newline fun c => (lineBreak c).map (·.2) := by
  refine ((recognizes_terminal _).choice
    ((recognizes_terminal _).choice (recognizes_terminal _))).congr fun c => ?_
  simp only [Terminal.read, lineBreak]
  split
  case h_1 rest hc => simp [eat?_cons hc]
  case h_2 x rest hnot hc =>
    have hboth : ¬ ('\r' = x ∧ ['\n'] <+: rest) := by
      rintro ⟨rfl, y, rfl⟩
      exact hnot y rfl rfl
    rw [eat?_cons hc, eat?_cons hc, eat?_cons hc, if_neg hboth]
    by_cases hn : x = '\n'
    · simp [hn, isLineBreak]
    · by_cases hr : x = '\r'
      · simp [hr, isLineBreak]
      · simp [hn, hr, Ne.symm hn, Ne.symm hr, isLineBreak]
  case h_3 hc => simp [Cursor.eat?, hc]

theorem recognizes_onLine :
    Recognizes datamodel .atomic Rule.onLine (Terminal.char (!isLineBreak ·)).read := by
  refine (recognizes_newline.not.seq (recognizes_terminal (.char fun _ => true))).congr fun c => ?_
  cases hc : c.rest with
  | nil =>
      rw [char_read_stops (hc ▸ stops_nil), lineBreak_refuses stops_nil c hc]
      exact char_read_stops (hc ▸ stops_nil)
  | cons x rest =>
      rw [char_read_cons hc, Option.isSome_map, lineBreak_isSome hc]
      cases isLineBreak x
      · exact char_read_cons hc
      · rfl

theorem recognizes_whitespace :
    Recognizes datamodel .atomic (.rule .whitespace) (Terminal.char isSpace).read :=
  .rule ((recognizes_one ' ').or_char (recognizes_one '\t')) rfl rfl

theorem recognizes_comment : Recognizes datamodel .atomic (.rule .comment)
    fun c => (c.eat? ['/', '/']).map (·.skipWhile (!isLineBreak ·)) :=
  .rule (((recognizes_terminal _).seq recognizes_onLine.many_char).congr fun c => by
    rw [Option.map_eq_bind]
    rfl) rfl rfl

theorem skip_of_comment {d : Cursor} (h : (c.skipWhile isSpace).eat? ['/', '/'] = some d) :
    skip c = d.skipWhile (!isLineBreak ·) := by
  have hp := Cursor.eat?_passes h
  have hd : (c.skipWhile isSpace).rest = '/' :: '/' :: d.rest := hp.rest
  simp only [skip, hd]
  rw [skipWhile_advance hd (by decide), skipWhile_advance (by rw [Cursor.rest_advance, hd]; rfl)
    (by decide), Cursor.advance_advance, hp.moved]
  rfl

theorem skip_of_no_comment (h : (c.skipWhile isSpace).eat? ['/', '/'] = none) :
    skip c = c.skipWhile isSpace := by
  rw [skip]
  split
  case h_1 rest hc => rw [eat?_cons hc] at h; simp at h
  case h_2 => rfl

/-- What stands between words is what is skipped. -/
theorem recognizes_blank : Recognizes datamodel .atomic Rule.blank fun c => some (skip c) := by
  let read : Reader Unit := fun c =>
    (c.eat? ['/', '/']).map fun c => ((), (c.skipWhile (!isLineBreak ·)).skipWhile isSpace)
  have hread : Recognizes datamodel .atomic (.seq (.rule .comment) (.many (.rule .whitespace)))
      fun c => (read c).map (·.2) :=
    (recognizes_comment.seq recognizes_whitespace.many_char).congr fun c => by
      cases h : c.eat? ['/', '/'] <;> simp [read, h]
  have on : GetsOn id read := by
    intro c a c' h
    obtain ⟨d, hd, h⟩ := Option.map_eq_some_iff.mp h
    obtain ⟨rfl, rfl⟩ := Prod.mk.inj h
    have h₁ := (Cursor.eat?_passes hd).length
    have h₂ := (d.skipWhile_passes (!isLineBreak ·)).length
    have h₃ := ((d.skipWhile (!isLineBreak ·)).skipWhile_passes isSpace).length
    simp only [id, List.length_cons, List.length_nil] at h₁
    omega
  refine (recognizes_whitespace.many_char.seq (hread.many on)).congr fun c => congrArg some ?_
  cases h : (c.skipWhile isSpace).eat? ['/', '/'] with
  | none =>
      rw [many_of_none (by simp only [read, id, h, Option.map_none]), skip_of_no_comment h]
  | some d =>
      -- behind a comment there is a line break or nothing, so neither blanks nor another comment
      have hbreak : AtBreak (d.skipWhile (!isLineBreak ·)).rest := d.skipWhile_stops _
      have hstay : (d.skipWhile (!isLineBreak ·)).skipWhile isSpace =
          d.skipWhile (!isLineBreak ·) :=
        skipWhile_stay (hbreak.stops_skip.mono fun x hx => by simp [opensSkip, hx])
      have hnone : (d.skipWhile (!isLineBreak ·)).eat? ['/', '/'] = none := by
        cases hc : (d.skipWhile (!isLineBreak ·)).rest with
        | nil => simp [Cursor.eat?, hc]
        | cons x rest =>
            rw [hc, AtBreak, stops_cons, Bool.not_eq_false'] at hbreak
            rw [eat?_cons hc, if_neg]
            rintro ⟨rfl, -⟩
            exact absurd hbreak (by decide)
      have hsome : read (id (c.skipWhile isSpace)) = some ((), d.skipWhile (!isLineBreak ·)) := by
        simp only [read, id, h, Option.map_some, hstay]
      rw [many_of_some on hsome, many_of_none (by simp only [read, id, hnone, Option.map_none]),
        skip_of_comment h]

theorem between_free (c : Cursor) :
    Matches datamodel .atomic (datamodel.between .free) c (some ([], skip c)) :=
  recognizes_blank c

/-! ### Names -/

theorem recognizes_identChar :
    Recognizes datamodel .atomic (.rule .identChar) (Terminal.char isNameChar).read :=
  .rule (((recognizes_terminal (.char Char.isAlphanum)).or_char
    ((recognizes_one '_').or_char (recognizes_one '-'))).congr_char fun _ =>
      (Bool.or_assoc ..).symm) rfl rfl

theorem recognizes_identifier :
    Recognizes datamodel .atomic (datamodel.body .identifier) fun c => (identifier c).map (·.2) := by
  refine (((recognizes_terminal (.char Char.isAlpha)).or_char (recognizes_one '_')).seq
    recognizes_identChar.many_char).congr fun c => ?_
  cases hc : c.rest with
  | nil => rw [char_read_stops (hc ▸ stops_nil), identifier_refuses stops_nil c hc]; rfl
  | cons x rest =>
      rw [char_read_cons hc]
      simp only [identifier, hc]
      by_cases hx : isNameStart x = true
      · have hx' : (x.isAlpha || x == '_') = true := hx
        rw [if_pos hx, if_pos hx', Option.bind_eq_bind, Option.bind_some, Option.map_some,
          ← skipWhile_advance hc (isNameChar_of_isNameStart hx)]
        rfl
      · have hx' : ¬ (x.isAlpha || x == '_') = true := hx
        rw [if_neg hx, if_neg hx']
        rfl

theorem recognizes_dotted :
    Recognizes datamodel .atomic Rule.dotted fun c => (path c).map (·.2) := by
  have hname : Recognizes datamodel .atomic (.rule .identifier) fun c => (identifier c).map (·.2) :=
    recognizes_identifier.rule rfl rfl
  have hmore : Recognizes datamodel .atomic (.seq (Rule.one '.') (.rule .identifier))
      fun c => (c.eat? ['.'] >>= identifier).map (·.2) :=
    ((recognizes_one '.').seq hname).congr fun c => by
      rw [← eat?_one]
      cases c.eat? ['.'] <;> rfl
  refine (hname.seq (hmore.many dotted_getsOn)).congr fun c => ?_
  rw [path]
  cases identifier c <;> rfl

/-! ### Keywords -/

theorem recognizes_keyword (k : Keyword) : Recognizes datamodel .atomic (datamodel.body (.keyword k))
    fun c => (identifier c).bind fun (i, c) => if i.name = k.word then some c else none := by
  refine ((recognizes_terminal (.text k.word.toList)).seq recognizes_identChar.not).congr
    fun c => ?_
  -- the word is there and ends, if and only if it is the name that is read
  have hend : ∀ d : Cursor, ((Terminal.char isNameChar).read d).isSome = false ↔
      Stops isNameChar d.rest := by
    intro d
    cases hd : d.rest with
    | nil => rw [char_read_stops (hd ▸ stops_nil)]; simp
    | cons x rest =>
        rw [char_read_cons hd, stops_cons]
        cases isNameChar x <;> simp
  cases heat : c.eat? k.word.toList with
  | none =>
      rw [Terminal.read, heat, Option.bind_eq_bind, Option.bind_none]
      symm
      rw [Option.bind_eq_none_iff]
      rintro ⟨i, c'⟩ hi
      obtain ⟨-, hp, -⟩ := identifier_eq_some_iff.mp hi
      refine if_neg fun hname => ?_
      rw [hname] at hp
      rw [hp.eat?] at heat
      cases heat
  | some d =>
      rw [Terminal.read, heat, Option.bind_eq_bind, Option.bind_some]
      have hp := Cursor.eat?_passes heat
      by_cases hstops : Stops isNameChar d.rest
      · have hread : identifier c = some (⟨k.word, c.position⟩, d) :=
          identifier_eq_some_iff.mpr ⟨⟨isName_word k, rfl⟩, hp, hstops⟩
        rw [hread, (hend d).mpr hstops]
        simp
      · have hsome : ((Terminal.char isNameChar).read d).isSome = true := by
          rw [← Bool.not_eq_false, hend]
          exact hstops
        rw [hsome, if_pos rfl]
        symm
        rw [Option.bind_eq_none_iff]
        rintro ⟨i, c'⟩ hi
        obtain ⟨-, hp', hstops'⟩ := identifier_eq_some_iff.mp hi
        refine if_neg fun hname => hstops ?_
        rw [hname] at hp'
        rwa [hp.moved, ← hp'.moved]

/-! ### Numbers -/

theorem recognizes_digits : Recognizes datamodel .atomic (Rule.repeated Rule.digit) fun c =>
    if (c.run Char.isDigit).1.isEmpty then none else some (c.run Char.isDigit).2 := by
  have hdigit : Recognizes datamodel .atomic Rule.digit (Terminal.char Char.isDigit).read :=
    recognizes_terminal _
  refine (hdigit.seq hdigit.many_char).congr fun c => ?_
  cases hc : c.rest with
  | nil =>
      rw [char_read_stops (hc ▸ stops_nil)]
      simp [Cursor.run, hc]
  | cons x rest =>
      rw [char_read_cons hc]
      by_cases hx : x.isDigit = true
      · rw [if_pos hx, Option.bind_eq_bind, Option.bind_some, ← skipWhile_advance hc hx]
        simp [Cursor.run, Cursor.skipWhile, hc, hx]
      · rw [if_neg hx]
        simp [Cursor.run, hc, hx]

theorem recognizes_fraction :
    Recognizes datamodel .atomic (.option (.seq (Rule.one '.') (Rule.repeated Rule.digit)))
      fun c => some (fraction c).2 := by
  refine ((recognizes_one '.').seq recognizes_digits).option.congr fun c => congrArg some ?_
  rw [← eat?_one, fraction]
  split
  case h_1 x rest hc =>
    rw [eat?_cons hc]
    by_cases hx : x.isDigit = true
    · simp [Cursor.run, hc, hx]
    · simp [Cursor.run, hc, hx]
  case h_2 hnot =>
    cases hdot : c.eat? ['.'] with
    | none => rfl
    | some d =>
        have hp := Cursor.eat?_passes hdot
        have hrest : d.rest = [] := by
          cases hd : d.rest with
          | nil => rfl
          | cons x rest => exact absurd (by rw [hp.rest, hd]; rfl) (hnot x rest)
        simp [Cursor.run, hrest]

theorem recognizes_number :
    Recognizes datamodel .atomic (datamodel.body .numericLiteral) fun c => (number c).map (·.2) := by
  refine ((recognizes_one '-').option.seq
    (recognizes_digits.seq recognizes_fraction)).congr fun c => ?_
  have hsign : ((c.eat? ['-']).getD c) = (sign c).2 := by
    rw [sign]
    cases c.eat? ['-'] <;> rfl
  rw [← eat?_one, Option.bind_eq_bind, Option.bind_some, hsign]
  simp only [number]
  split <;> rfl

/-! ### Strings -/

/-- One character of a string's body, or two that are an escape. -/
def bodyStep : Reader Unit := fun c =>
  match c.rest with
  | '\\' :: _ :: _ => some ((), c.advance 2)
  | x :: _          =>
    if x == '"' || x == '\\' || isLineBreak x then none else some ((), c.advance 1)
  | []              => none

theorem bodyStep_getsOn : GetsOn id bodyStep := by
  intro c a c' h
  simp only [bodyStep, id] at h
  split at h
  case h_1 hc =>
    cases h
    rw [Cursor.rest_advance, hc]
    simp only [List.drop_succ_cons, List.drop_zero, List.length_cons]
    omega
  case h_2 hc =>
    split at h
    case isTrue => cases h
    case isFalse => cases h; simp [hc]
  case h_3 => cases h

theorem recognizes_bodyStep : Recognizes datamodel .atomic
    (.choice (.seq (Rule.one '\\') Rule.any)
      (.seq (.not (Rule.oneOf (Rule.one '"') [Rule.one '\\', Rule.newline])) Rule.any))
    fun c => (bodyStep c).map (·.2) := by
  have hany : Recognizes datamodel .atomic Rule.any (Terminal.char fun _ => true).read :=
    recognizes_terminal _
  refine (((recognizes_one '\\').seq hany).choice (((recognizes_one '"').choice
    ((recognizes_one '\\').choice recognizes_newline)).not.seq hany)).congr fun c => ?_
  cases hc : c.rest with
  | nil =>
      have hnil : ∀ p : Char → Bool, Stops p c.rest := fun _ => hc ▸ stops_nil
      simp [char_read_stops (hnil _), lineBreak_refuses stops_nil c hc, bodyStep, hc]
  | cons x rest =>
      have hbreak := lineBreak_isSome hc
      simp only [char_read_cons hc, bodyStep, hc]
      by_cases hx : x = '\\'
      · subst hx
        cases rest with
        | nil =>
            have hnil : Stops (fun _ => true) (c.advance 1).rest := by simp [hc]
            simp [char_read_stops hnil]
        | cons y rest =>
            have hcons : (c.advance 1).rest = y :: rest := by simp [hc]
            simp [char_read_cons hcons, Cursor.advance_advance]
      · by_cases hq : x = '"'
        · subst hq
          simp
        · cases hb : lineBreak c <;> rw [hb] at hbreak <;> simp [char_read_cons hc, hx, hq, ← hbreak]

/-- A body is as long as its steps. -/
theorem bodyStep_cases (c : Cursor) : bodyStep c = none ∧ bodyLength c.rest = 0 ∨
    ∃ k, bodyStep c = some ((), c.advance k) ∧
      bodyLength c.rest = k + bodyLength (c.advance k).rest := by
  unfold bodyStep
  split
  case h_1 x rest hc =>
    refine .inr ⟨2, rfl, ?_⟩
    rw [Cursor.rest_advance, hc, bodyLength, Nat.add_comm]
    rfl
  case h_2 x rest hnot hc =>
    have hlength : bodyLength (x :: rest) =
        if x == '"' || x == '\\' || isLineBreak x then 0 else bodyLength rest + 1 := by
      rw [bodyLength]
      exact hnot
    rw [hc, hlength]
    split
    case isTrue => exact .inl ⟨rfl, rfl⟩
    case isFalse => exact .inr ⟨1, rfl, by rw [Cursor.rest_advance, hc, Nat.add_comm]; rfl⟩
  case h_3 hc => exact .inl ⟨rfl, by rw [hc]; rfl⟩

theorem many_bodyStep (c : Cursor) : (many id bodyStep c).2 = c.advance (bodyLength c.rest) := by
  induction hn : c.rest.length using Nat.strongRecOn generalizing c with
  | ind n ih =>
      subst hn
      rcases bodyStep_cases c with ⟨hnone, hlength⟩ | ⟨k, hsome, hlength⟩
      · rw [many_of_none hnone, hlength, Cursor.advance_zero]
      · rw [many_of_some bodyStep_getsOn hsome, ih _ (bodyStep_getsOn hsome) _ rfl, hlength,
          Cursor.advance_advance]

theorem recognizes_stringContent : Recognizes datamodel .atomic (datamodel.body .stringContent)
    fun c => some (c.advance (bodyLength c.rest)) :=
  (recognizes_bodyStep.many bodyStep_getsOn).congr fun c => congrArg some (many_bodyStep c)

/-! ### What stands apart from lines -/

/-- The place behind the line. -/
def behindLine (c : Cursor) : Cursor :=
  let c := c.skipWhile (!isLineBreak ·)
  ((lineBreak c).map (·.2)).getD c

theorem recognizes_line :
    Recognizes datamodel .atomic (.seq (Rule.repeated Rule.onLine) (.option Rule.newline))
      fun c => ((Terminal.char (!isLineBreak ·)).read c).map fun _ => behindLine c := by
  refine ((recognizes_onLine.seq recognizes_onLine.many_char).seq
    recognizes_newline.option).congr fun c => ?_
  cases hc : c.rest with
  | nil => rw [char_read_stops (hc ▸ stops_nil)]; rfl
  | cons x rest =>
      rw [char_read_cons hc]
      by_cases hx : (!isLineBreak x) = true
      · rw [if_pos hx, behindLine, skipWhile_advance hc hx]
        rfl
      · rw [if_neg hx]
        rfl

theorem behindLine_passes (c : Cursor) : ∃ s, c.Passes s (behindLine c) := by
  have hp := c.skipWhile_passes (!isLineBreak ·)
  rw [behindLine]
  cases hbreak : lineBreak (c.skipWhile (!isLineBreak ·)) with
  | none => exact ⟨_, hp⟩
  | some r =>
      obtain ⟨x, t, -, -, hp'⟩ := lineBreak_eq_some hbreak
      exact ⟨_, hp.trans hp'⟩

theorem behindLine_length {x : Char} {rest : List Char} (hc : c.rest = x :: rest)
    (hx : isLineBreak x = false) : (behindLine c).rest.length < c.rest.length := by
  have h₁ := (c.skipWhile_passes (!isLineBreak ·)).length
  have hpos : 0 < (c.rest.takeWhile (!isLineBreak ·)).length := by
    rw [hc, List.takeWhile_cons_of_pos (by rw [hx]; rfl), List.length_cons]
    omega
  rw [behindLine]
  cases hbreak : lineBreak (c.skipWhile (!isLineBreak ·)) with
  | none => simp only [Option.map_none, Option.getD_none]; omega
  | some r =>
      have h₂ := lineBreak_length hbreak
      simp only [Option.map_some, Option.getD_some]
      omega

/-! ### Trees of words -/

theorem identifier_follows (hm : m ≠ .atomic) (c : Cursor) :
    Follows datamodel m (.rule .identifier)
      (fun i ps => ps = [⟨.identifier, i.position, i.name.toList, []⟩]) c (identifier c) := by
  have h : Follows datamodel m (.rule .identifier)
      (fun i ps => ps = [⟨.identifier, c.position, i.name.toList, []⟩]) c (identifier c) :=
    recognizes_identifier.follows rfl hm fun i c' h => (identifier_eq_some_iff.mp h).2.1
  cases hr : identifier c with
  | none => rwa [hr] at h
  | some x =>
      obtain ⟨i, c'⟩ := x
      rw [hr] at h
      rwa [Follows, (identifier_eq_some_iff.mp hr).1.position]

theorem dotted_follows {r : Rule} (hbody : datamodel.body r = Rule.dotted)
    (hkind : datamodel.kind r = .atomic) (hm : m ≠ .atomic) (c : Cursor) :
    Follows datamodel m (.rule r) (fun s ps => ps = [⟨r, c.position, s.toList, []⟩]) c (path c) :=
  Recognizes.follows (hbody ▸ recognizes_dotted) hkind hm fun s c' h => by
    obtain ⟨t, hp, -, rfl⟩ := path_spells h
    exact hp

theorem number_follows (c : Cursor) : Follows datamodel .free (.rule .numericLiteral)
    (fun s ps => ps = [⟨.numericLiteral, c.position, s.toList, []⟩]) c (number c) :=
  recognizes_number.follows rfl (by decide) fun s c' h => by
    obtain ⟨t, hp, -, rfl⟩ := number_spells h
    exact hp

/-- The pair of a string literal. -/
def IsString (b : List Char × Position) (t : Rule.Tree) : Prop :=
  ∃ p text, t = ⟨.stringLiteral, p, text, [⟨.stringContent, b.2, b.1, []⟩]⟩

theorem stringLiteral_follows (m : Mode) (c : Cursor) :
    Follows datamodel m (.rule .stringLiteral) (fun b ps => ∃ t, ps = [t] ∧ IsString b t) c
      (stringBody c) := by
  have htight : ∀ c, Matches datamodel .atomic (datamodel.between .compound) c (some ([], c)) :=
    between_tight (by decide)
  rw [stringBody]
  cases hopen : c.eat? ['"'] with
  | none => exact .ruleNone (.seqLeft (.terminalNone hopen))
  | some c₁ =>
      have hcontent := recognizes_stringContent.leaf (c := c₁) (m := .compound) rfl (by decide) rfl
      simp only [Option.bind_eq_bind, Option.bind_some]
      cases hclose : (c₁.advance (bodyLength c₁.rest)).eat? ['"'] with
      | none =>
          exact .ruleNone (.seqRight (.terminal hopen) (htight _)
            (.seqRight hcontent (htight _) (.terminalNone hclose)))
      | some c₂ =>
          rw [passed_of_passes (body_passes hclose)] at hcontent
          exact ⟨_, .rule (.seq (.terminal hopen) (htight _)
            (.seq hcontent (htight _) (.terminal hclose))), _, rfl, c.position, _, rfl⟩

end SchemaEnums.Schema
