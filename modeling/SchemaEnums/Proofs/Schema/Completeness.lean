import SchemaEnums.Proofs.Schema.Soundness

/-!
# Schema — Completeness

What a text spells is read off it: one statement `…_reads` for each reader.

A word is read to its end, so each statement asks that what follows cannot continue it; a value is
followed by what ends a value, and what stands on a line by what ends the line (`EndsLine`).  The
alternatives that are tried before the right one fail at the first character, but for a constant,
which what follows tells from a call and from the name of an argument.
-/

namespace SchemaEnums.Schema
open Text Text.Reader Grammar Literal

variable {α : Type}

/-! ### Words -/

theorem path_reads {s : String} (h : IsPath s.toList) {c c' : Cursor} (hp : c.Passes s.toList c')
    (hr : Stops extendsPath c'.rest) : path c = some (s, c') := by
  obtain ⟨s', hs, heq⟩ := (path_takes h hr).passes hp
  rw [hs, String.toList_injective heq]

theorem number_reads {s : String} (h : IsNumber s.toList) {c c' : Cursor}
    (hp : c.Passes s.toList c') (hr : Stops extendsNumber c'.rest) : number c = some (s, c') := by
  obtain ⟨s', hs, heq⟩ := (number_takes h hr).passes hp
  rw [hs, String.toList_injective heq]

theorem IsBody.bodyLength_eq {body : List Char} (h : IsBody body) (rest : List Char) :
    bodyLength (body ++ '"' :: rest) = body.length := by
  induction h with
  | nil => simp [bodyLength]
  | escape x _ ih => simp only [List.cons_append, bodyLength, ih, List.length_cons]
  | @char x t hx _ ih =>
      rw [List.cons_append, bodyLength]
      · rw [hx, ih]
        rfl
      · rintro _ _ rfl -
        exact absurd hx (by decide)

theorem stringBody_reads {body : List Char} (h : IsBody body) {c c' : Cursor}
    (hp : c.Passes ('"' :: (body ++ ['"'])) c') : ∃ p, stringBody c = some ((body, p), c') := by
  obtain ⟨c₁, hp₁, hp⟩ := hp.split_cons
  obtain ⟨c₂, hp₂, hp₃⟩ := hp.split
  have hc₁ : c₁.rest = body ++ '"' :: c'.rest := by rw [hp₂.rest, hp₃.rest]; rfl
  have hlength : bodyLength c₁.rest = body.length := by rw [hc₁, h.bodyLength_eq]
  have htake : c₁.rest.take body.length = body := by rw [hc₁, List.take_left]
  refine ⟨c₁.position, ?_⟩
  simp only [stringBody, hp₁.eat?, Option.bind_eq_bind, Option.bind_some, hlength, ← hp₂.moved,
    hp₃.eat?, htake]

theorem string_reads {value : String} {body : List Char} (h : IsBody body)
    (hdecode : decode body = .ok value.toList) {c c' : Cursor}
    (hp : c.Passes ('"' :: (body ++ ['"'])) c') : string c = some (.ok value, c') := by
  obtain ⟨p, hbody⟩ := stringBody_reads h hp
  simp only [string, hbody, Option.bind_eq_bind, Option.bind_some, hdecode, Except.map,
    Except.mapError, String.ofList_toList]

/-! ### Arguments -/

theorem EndsValue.stops_skip {c : Cursor} (h : EndsValue c.rest) :
    Stops (fun x => x == '(' || x == ':') (skip c).rest := h.2 c.position

/-- A path is no argument's name, unless a colon follows it. -/
theorem argumentName_eq_none {p : List Char} (h : IsPath p) {c c' : Cursor} (hp : c.Passes p c')
    (hr : Stops isNameChar c'.rest) (hcolon : Stops (· == ':') (skip c').rest) :
    argumentName c = none := by
  obtain ⟨n, ns, rfl, hns⟩ := h
  rw [intercalate_cons] at hp
  obtain ⟨c₁, hp₁, hp₂⟩ := hp.split
  have hname : (String.ofList n).toList = n := String.toList_ofList
  -- behind the first name stands a dot or what follows the path
  have hstops : Stops isNameChar c₁.rest ∧ Stops (· == ':') (skip c₁).rest := by
    cases ns with
    | nil =>
        obtain rfl := hp₂.eq_of_nil
        exact ⟨hr, hcolon⟩
    | cons m ns =>
        have hdot : c₁.rest = '.' :: (m ++ (ns.flatMap (['.'] ++ ·) ++ c'.rest)) := by
          rw [hp₂.rest]
          simp
        have hstay : skip c₁ = c₁ := skip_eq_self (by rw [hdot]; exact .cons rfl)
        rw [hstay, hdot]
        exact ⟨.cons rfl, .cons rfl⟩
  have hi : identifier c = some (⟨String.ofList n, c.position⟩, c₁) :=
    identifier_eq_some_iff.mpr ⟨⟨by rw [Identifier.WellFormed, hname]; exact hns n (by simp), rfl⟩,
      by rw [hname]; exact hp₁, hstops.1⟩
  simp only [argumentName, hi, Option.bind_eq_bind, Option.bind_some,
    Cursor.eat?_char_eq_none hstops.2, Option.bind_none]

theorem IsSpaces.stops {s rest : List Char} (h : IsSpaces s) {p : Char → Bool}
    (hp : ∀ x, isSpace x = true → p x = false) (hr : Stops p rest) : Stops p (s ++ rest) := by
  rcases h.head with rfl | ⟨x, t, rfl, hx⟩
  · exact hr
  · exact .cons (hp x hx)

theorem extendsPath_of_isSpace {x : Char} (h : isSpace x = true) : extendsPath x = false :=
  extendsPath_of_opensGap (by simp [opensGap, h])

theorem isNameChar_of_extendsPath {x : Char} (h : isNameChar x = true) : extendsPath x = true := by
  rw [extendsPath, h, Bool.true_or]

theorem extendsPath_of_extendsNumber {x : Char} (h : extendsNumber x = true) :
    extendsPath x = true := by
  simp only [extendsNumber, extendsPath, isNameChar, Char.isAlphanum, Bool.or_eq_true] at h ⊢
  tauto

/-- A value is not taken for the name of an argument. -/
theorem Expression.Spelled.argumentName_eq_none {e : Expression} {t : List Char} (h : e.Spelled t)
    {c c' : Cursor} (hp : c.Passes t c') (hr : EndsValue c'.rest) : argumentName c = none := by
  have hcolon := hr.stops_skip.mono (p := (· == ':')) fun x hx => by rw [hx, Bool.or_true]
  cases h with
  | string hbody hdecode => exact argumentName_refuses (.cons rfl) c hp.rest
  | number h =>
      obtain ⟨x, u, hx, hopens⟩ := h.opens
      have hc : c.rest = x :: (u ++ c'.rest) := by rw [hp.rest, hx, List.cons_append]
      exact argumentName_refuses (.cons (isNameStart_of_opensNumber hopens)) c hc
  | constant h =>
      exact SchemaEnums.Schema.argumentName_eq_none h hp
        (hr.1.mono fun _ => isNameChar_of_extendsPath) hcolon
  | call h hs labels values list =>
      obtain ⟨u, rfl⟩ := list.opens
      obtain ⟨c₁, hp₁, hp⟩ := hp.split
      obtain ⟨c₂, hp₂, hp₃⟩ := hp.split
      refine SchemaEnums.Schema.argumentName_eq_none h hp₁ ?_ ?_
      · rw [hp₂.rest, hp₃.rest]
        exact (hs.stops (fun _ => extendsPath_of_isSpace) (.cons rfl)).mono
          fun _ => isNameChar_of_extendsPath
      · rw [skip_spaces hs hp₂ (by rw [hp₃.rest]; exact .cons rfl), hp₃.rest]
        exact .cons rfl
  | array values list =>
      obtain ⟨u, rfl⟩ := list.opens
      exact argumentName_refuses (.cons rfl) c hp.rest

/-- `value` reads the value that `t` spells. -/
def ReadsValue (value : Reader (Checked Expression)) (e : Expression) (t : List Char) : Prop :=
  ∀ ⦃c c' : Cursor⦄, c.Passes t c' → EndsValue c'.rest → value c = some (.ok e, c')

theorem argument_reads {value : Reader (Checked Expression)} {i : ArgumentText} (h : i.Spelled)
    (hv : ReadsValue value i.argument.value i.value) {c c' : Cursor} (hp : c.Passes i.text c')
    (hr : EndsValue c'.rest) : argument value c = some (.ok i.argument, c') := by
  obtain ⟨⟨name, e⟩, label, t⟩ := i
  obtain ⟨hlabel, hvalue⟩ := h
  cases hlabel with
  | none =>
      simp only [argument, hvalue.argumentName_eq_none hp hr, hv hp hr, Option.bind_eq_bind,
        Option.bind_some]
      rfl
  | @some n s s' hn hs hs' =>
      have hp : c.Passes ((n.toList ++ (s ++ ':' :: s')) ++ t) c' := hp
      obtain ⟨c₄, hp, hp₅⟩ := hp.split
      obtain ⟨c₁, hp₁, hp⟩ := hp.split
      obtain ⟨c₂, hp₂, hp⟩ := hp.split
      obtain ⟨c₃, hp₃, hp₄⟩ := hp.split_cons
      obtain ⟨x, u, hx, hopens⟩ := hvalue.opens
      have hi : identifier c = some (⟨n, c.position⟩, c₁) :=
        identifier_eq_some_iff.mpr ⟨⟨hn, rfl⟩, hp₁, by
          rw [hp₂.rest, hp₃.rest]
          exact (hs.stops (fun _ => extendsPath_of_isSpace) (.cons rfl)).mono
            fun _ => isNameChar_of_extendsPath⟩
      have hskip := skip_spaces hs hp₂ (by rw [hp₃.rest]; exact .cons rfl)
      have hskip' := skip_spaces hs' hp₄ (by
        have hc₄ := hp₅.rest
        rw [show t = x :: u from hx] at hc₄
        rw [hc₄]
        exact .cons (opensSkip_of_opensValue hopens))
      have hname : argumentName c = some (n, c₄) := by
        simp only [argumentName, hi, hskip, hp₃.eat?, hskip', Option.bind_eq_bind, Option.bind_some]
      simp only [argument, hname, hv hp₅ hr, Option.bind_eq_bind, Option.bind_some]
      rfl

/-! ### Values -/

theorem ListTail.length_le {closing : Char} {ts : List (List Char)} {u : List Char}
    (h : ListTail closing ts u) : ∀ t ∈ ts, t.length ≤ u.length := by
  induction h with
  | close hg => simp
  | comma hg hg' => simp
  | item hg hg' h ih =>
      rintro t (_ | ⟨_, ht⟩)
      · simp only [List.length_append, List.length_cons]
        omega
      · have := ih t ht
        simp only [List.length_append, List.length_cons]
        omega

/-- A list is longer than any of its items. -/
theorem Listed.length_lt {opening closing : Char} {ts : List (List Char)} {u : List Char}
    (h : Listed opening closing ts u) : ∀ t ∈ ts, t.length < u.length := by
  cases h with
  | empty hg => simp
  | items hg h =>
      rintro t (_ | ⟨_, ht⟩)
      · simp only [List.length_append, List.length_cons]
        omega
      · have := h.length_le t ht
        simp only [List.length_append, List.length_cons]
        omega

theorem Checked.all_map_ok {ι : Type} (f : ι → α) (is : List ι) :
    Checked.all (is.map fun i => .ok (f i)) = .ok (is.map f) := by
  rw [Checked.all_eq_ok_iff, List.map_map]
  rfl

/-- A list of arguments is read where their values are. -/
theorem arguments_reads {value : Reader (Checked Expression)} (spells : SpellsValues value)
    (none : ∀ rest, Refuses value (')' :: rest)) {items : List ArgumentText}
    (h : ∀ i ∈ items, i.Spelled)
    (hv : ∀ i ∈ items, ReadsValue value i.argument.value i.value) {t : List Char}
    (list : Listed '(' ')' (items.map ArgumentText.text) t) {c c' : Cursor} (hp : c.Passes t c') :
    bracketed '(' ')' (argument value) c = some (items.map fun i => .ok i.argument, c') :=
  listed_reads (.inl rfl) (argument_spells spells)
    (fun rest => argument_refuses (.cons rfl) (none rest))
    (fun i hi => clear_of_opens (h i hi).opens)
    (fun i hi _ _ hp hr => argument_reads (h i hi) (hv i hi) hp hr) list hp

/-! ### The choice between values -/

section Choice

variable {x : Char} {bound : List Char} {c c' : Cursor}

theorem expressionWithin_reads_string {value : String} {body : List Char} (hbody : IsBody body)
    (hdecode : decode body = .ok value.toList) (hp : c.Passes ('"' :: (body ++ ['"'])) c') :
    expressionWithin (x :: bound) c = some (.ok (.string value), c') := by
  have h₁ : call (expressionWithin bound) c = none := call_refuses (.cons rfl) c hp.rest
  have h₂ : array (expressionWithin bound) c = none := array_refuses (.cons rfl) c hp.rest
  have h₃ := number_refuses (.cons rfl) c hp.rest
  simp only [expressionWithin, h₁, h₂, h₃, string_reads hbody hdecode hp, Option.map_none,
    Option.map_some]
  rfl

theorem expressionWithin_reads_number {n : String} (h : IsNumber n.toList)
    (hp : c.Passes n.toList c') (hr : EndsValue c'.rest) :
    expressionWithin (x :: bound) c = some (.ok (.number n), c') := by
  obtain ⟨y, u, hy, hopens⟩ := h.opens
  have hc : c.rest = y :: (u ++ c'.rest) := by rw [hp.rest, hy, List.cons_append]
  have h₁ : call (expressionWithin bound) c = none :=
    call_refuses (.cons (isNameStart_of_opensNumber hopens)) c hc
  have h₂ : array (expressionWithin bound) c = none :=
    array_refuses (.cons (ne_of_opens (.inr hopens) rfl rfl)) c hc
  have h₃ := number_reads h hp (hr.1.mono fun _ => extendsPath_of_extendsNumber)
  simp only [expressionWithin, h₁, h₂, h₃, Option.map_some]
  rfl

theorem expressionWithin_reads_constant {n : String} (h : IsPath n.toList)
    (hp : c.Passes n.toList c') (hr : EndsValue c'.rest) :
    expressionWithin (x :: bound) c = some (.ok (.constant n), c') := by
  obtain ⟨y, u, hy, hopens⟩ := h.opens
  have hc : c.rest = y :: (u ++ c'.rest) := by rw [hp.rest, hy, List.cons_append]
  have hpath := path_reads h hp hr.1
  have hlist : bracketed '(' ')' (argument (expressionWithin bound)) (skip c') = none :=
    bracketed_refuses (hr.stops_skip.mono fun x hx => by rw [hx, Bool.true_or]) _ rfl
  have h₁ : call (expressionWithin bound) c = none := by
    simp only [call, hpath, hlist, Option.bind_eq_bind, Option.bind_some, Option.bind_none]
  have h₂ : array (expressionWithin bound) c = none :=
    array_refuses (.cons (ne_of_opens (.inl hopens) rfl rfl)) c hc
  have h₃ := number_refuses (.cons (opensNumber_of_isNameStart hopens)) c hc
  have h₄ := string_refuses (.cons (ne_of_opens (.inl hopens) rfl rfl)) c hc
  simp only [expressionWithin, h₁, h₂, h₃, h₄, hpath, Option.map_none, Option.map_some]
  rfl

theorem expressionWithin_reads_call {path : String} {s t : List Char} {items : List ArgumentText}
    (hpath : IsPath path.toList) (hs : IsSpaces s) (h : ∀ i ∈ items, i.Spelled)
    (hv : ∀ i ∈ items, ReadsValue (expressionWithin bound) i.argument.value i.value)
    (list : Listed '(' ')' (items.map ArgumentText.text) t)
    (hp : c.Passes (path.toList ++ (s ++ t)) c') : expressionWithin (x :: bound) c =
      some (.ok (.call path (items.map ArgumentText.argument)), c') := by
  obtain ⟨u, rfl⟩ := list.opens
  obtain ⟨c₁, hp₁, hp⟩ := hp.split
  obtain ⟨c₂, hp₂, hp₃⟩ := hp.split
  have h₁ := path_reads hpath hp₁ (by
    rw [hp₂.rest, hp₃.rest]
    exact hs.stops (fun _ => extendsPath_of_isSpace) (.cons rfl))
  have h₂ := skip_spaces hs hp₂ (by rw [hp₃.rest]; exact .cons rfl)
  have h₃ := arguments_reads (expressionWithin_spells bound)
    (fun rest => expressionWithin_refuses (.cons rfl) bound) h hv list hp₃
  simp only [expressionWithin, call, h₁, h₂, h₃, Checked.all_map_ok, Option.bind_eq_bind,
    Option.bind_some]
  rfl

theorem expressionWithin_reads_array {t : List Char} {items : List (Expression × List Char)}
    (h : ∀ i ∈ items, i.1.Spelled i.2)
    (hv : ∀ i ∈ items, ReadsValue (expressionWithin bound) i.1 i.2)
    (list : Listed '[' ']' (items.map Prod.snd) t) (hp : c.Passes t c') :
    expressionWithin (x :: bound) c = some (.ok (.array (items.map Prod.fst)), c') := by
  obtain ⟨u, rfl⟩ := list.opens
  have h₁ : call (expressionWithin bound) c = none := call_refuses (.cons rfl) c hp.rest
  have h₂ : bracketed '[' ']' (expressionWithin bound) c =
      some (items.map fun i => .ok i.1, c') :=
    listed_reads (.inr rfl) (expressionWithin_spells bound)
      (fun rest => expressionWithin_refuses (.cons rfl) bound)
      (fun i hi => clear_of_opens (h i hi).opens) hv list hp
  simp only [expressionWithin, h₁, array, h₂, Checked.all_map_ok, Option.bind_eq_bind,
    Option.bind_some]
  rfl

end Choice

/-- No value is spelled by nothing. -/
theorem Expression.Spelled.exists_bound {e : Expression} {t bound : List Char} (h : e.Spelled t)
    (hb : t.length ≤ bound.length) : ∃ x b, bound = x :: b := by
  obtain ⟨x, u, rfl, -⟩ := h.opens
  exact List.exists_cons_of_length_pos (Nat.lt_of_lt_of_le (Nat.succ_pos _) hb)

/-- The value stands within as many brackets as its text has characters: each of a list's items is
shorter than the list. -/
theorem expressionWithin_reads {e : Expression} {t : List Char} (h : e.Spelled t) :
    ∀ {bound : List Char}, t.length ≤ bound.length → ReadsValue (expressionWithin bound) e t := by
  induction h with
  | string hbody hdecode =>
      intro bound hb c c' hp _
      obtain ⟨x, bound, rfl⟩ := (Expression.Spelled.string hbody hdecode).exists_bound hb
      exact expressionWithin_reads_string hbody hdecode hp
  | number h =>
      intro bound hb c c' hp hr
      obtain ⟨x, bound, rfl⟩ := (Expression.Spelled.number h).exists_bound hb
      exact expressionWithin_reads_number h hp hr
  | constant h =>
      intro bound hb c c' hp hr
      obtain ⟨x, bound, rfl⟩ := (Expression.Spelled.constant h).exists_bound hb
      exact expressionWithin_reads_constant h hp hr
  | @call path s t items hpath hs labels values list ih =>
      intro bound hb c c' hp _
      obtain ⟨x, bound, rfl⟩ :=
        (Expression.Spelled.call hpath hs labels values list).exists_bound hb
      refine expressionWithin_reads_call hpath hs (fun i hi => ⟨labels i hi, values i hi⟩)
        (fun i hi => ih i hi ?_) list hp
      have hlt := list.length_lt _ (List.mem_map_of_mem hi)
      simp only [ArgumentText.text, List.length_append, List.length_cons] at hlt hb
      omega
  | @array t items values list ih =>
      intro bound hb c c' hp _
      obtain ⟨x, bound, rfl⟩ := (Expression.Spelled.array values list).exists_bound hb
      refine expressionWithin_reads_array values (fun i hi => ih i hi ?_) list hp
      have hlt := list.length_lt _ (List.mem_map_of_mem hi)
      rw [List.length_cons] at hb
      omega

/-- **A value is read, however it is spelled.** -/
theorem expression_reads {e : Expression} {t : List Char} (h : e.Spelled t) :
    ReadsValue expression e t := by
  intro c c' hp hr
  have hlength : t.length ≤ c.rest.length := by
    have := hp.length
    omega
  exact expressionWithin_reads h hlength hp hr

/-! ### Attributes -/

theorem attributeAfter_reads (marker : List Char) {a : Attribute} {t : List Char} (h : a.Spelled t)
    {c c' : Cursor} (hp : c.Passes (marker ++ t) c') (hr : Stops extendsAttribute c'.rest) :
    attributeAfter marker c = some (.ok a, c') := by
  obtain ⟨c₁, hp₁, hp⟩ := hp.split
  cases h with
  | bare hname =>
      have h₁ := path_reads hname hp
        (hr.mono fun x hx => by rw [extendsAttribute, hx, Bool.true_or])
      have h₂ : bracketed '(' ')' (argument expression) c' = none := bracketed_refuses
        (hr.mono fun x hx => by rw [extendsAttribute, hx, Bool.or_true]) _ rfl
      simp only [attributeAfter, hp₁.eat?, h₁, arguments, h₂, Option.bind_eq_bind,
        Option.bind_some, Option.bind_none]
  | listed hname hitems list =>
      obtain ⟨u, rfl⟩ := list.opens
      obtain ⟨c₂, hp₂, hp₃⟩ := hp.split
      have h₁ := path_reads hname hp₂ (by rw [hp₃.rest]; exact .cons rfl)
      have h₂ := arguments_reads expression_spells
        (fun rest => expression_refuses (.cons rfl)) hitems
        (fun i hi => expression_reads (hitems i hi).value) list hp₃
      simp only [attributeAfter, hp₁.eat?, h₁, arguments, h₂, Checked.all_map_ok,
        Option.bind_eq_bind, Option.bind_some]
      rfl

/-- Behind blanks the line ends: at a line break, a closing brace or the end of the text. -/
def EndsLine (after : List Char) : Prop :=
  ∀ p, Stops (fun x => !(x == '}' || isLineBreak x)) (skip ⟨p, after⟩).rest

theorem EndsLine.stops_skip {c : Cursor} (h : EndsLine c.rest) :
    Stops (fun x => !(x == '}' || isLineBreak x)) (skip c).rest := h c.position

/-- A class stops where a line ends if it holds no blank, no slash, no closing brace and no line
break. -/
theorem EndsLine.stops {after : List Char} (h : EndsLine after) {q : Char → Bool}
    (hq : ∀ x, (opensSkip x || x == '}' || isLineBreak x) = true → q x = false) :
    Stops q after := by
  cases after with
  | nil => exact stops_nil
  | cons x after =>
      by_cases hx : opensSkip x = true
      · exact .cons (hq x (by rw [hx]; rfl))
      · have hstay : skip ⟨.start, x :: after⟩ = ⟨.start, x :: after⟩ :=
          skip_eq_self (.cons (by simpa using hx))
        have hend := h .start
        rw [hstay, stops_cons, Bool.not_eq_false'] at hend
        exact .cons (hq x (by rw [Bool.or_assoc, hend, Bool.or_true]))

theorem extendsLine_cases {x : Char} (h : (opensSkip x || x == '}' || isLineBreak x) = true) :
    x = ' ' ∨ x = '\t' ∨ x = '/' ∨ x = '}' ∨ x = '\n' ∨ x = '\r' := by
  simp only [opensSkip, isSpace, isLineBreak, Bool.or_eq_true, beq_iff_eq] at h
  tauto

theorem EndsLine.endsValue {after : List Char} (h : EndsLine after) : EndsValue after := by
  refine ⟨h.stops fun x hx => ?_, fun p => (h p).mono fun x hx => ?_⟩
  · rcases extendsLine_cases hx with rfl | rfl | rfl | rfl | rfl | rfl <;> rfl
  · rw [Bool.or_eq_true, beq_iff_eq, beq_iff_eq] at hx
    rcases hx with rfl | rfl <;> rfl

theorem EndsLine.stops_attribute {after : List Char} (h : EndsLine after) :
    Stops extendsAttribute after := h.stops fun x hx => by
  rcases extendsLine_cases hx with rfl | rfl | rfl | rfl | rfl | rfl <;> rfl

/-- A character that may come directly behind the type of a field. -/
def Grammar.followsType (x : Char) : Bool := isSpace x || x == '@' || x == '[' || x == '?'

theorem followsType_of_isSpace {x : Char} (h : isSpace x = true) : followsType x = true := by
  simp only [followsType, h, Bool.true_or]

theorem extendsAttribute_of_followsType {x : Char} (h : followsType x = true) :
    extendsAttribute x = false := by
  simp only [followsType, isSpace, Bool.or_eq_true, beq_iff_eq] at h
  rcases h with (((rfl | rfl) | rfl) | rfl) | rfl <;> rfl

theorem extendsPath_of_followsType {x : Char} (h : followsType x = true) :
    extendsPath x = false := by
  have := extendsAttribute_of_followsType h
  rw [extendsAttribute, Bool.or_eq_false_iff] at this
  exact this.1

theorem SpelledAttributes.stops {as : List Attribute} {t rest : List Char}
    (h : SpelledAttributes as t) {q : Char → Bool} (hq : ∀ x, followsType x = true → q x = false)
    (hr : Stops q rest) : Stops q (t ++ rest) := by
  cases h with
  | nil => exact hr
  | cons hs ha h =>
      rw [List.append_assoc]
      exact hs.stops (fun x hx => hq x (followsType_of_isSpace hx)) (.cons (hq _ rfl))

theorem attributes_reads {as : List Attribute} {t : List Char} (h : SpelledAttributes as t)
    {c c' : Cursor} (hp : c.Passes t c') (hr : EndsLine c'.rest) :
    attributes c = (.ok as, c') := by
  have hmany : many skip (attributeAfter ['@']) c = (as.map .ok, c') := by
    induction h generalizing c with
    | nil =>
        obtain rfl := hp.eq_of_nil
        refine many_of_none ?_
        have hat := Cursor.eat?_char_eq_none (x := '@') (c := skip c') (hr.stops_skip.mono
          fun x hx => by rw [beq_iff_eq] at hx; subst hx; rfl)
        simp only [attributeAfter, hat, Option.bind_eq_bind, Option.bind_none]
    | @cons a as s t u hs ha h ih =>
        obtain ⟨c₁, hp₁, hp⟩ := hp.split
        have hp : c₁.Passes ((['@'] ++ t) ++ u) c' := by simpa using hp
        obtain ⟨c₂, hp₂, hp₃⟩ := hp.split
        have hskip := skip_spaces hs hp₁ (by rw [hp₂.rest]; exact .cons rfl)
        have hread := attributeAfter_reads ['@'] ha hp₂ (by
          rw [hp₃.rest]
          exact h.stops (fun _ => extendsAttribute_of_followsType) hr.stops_attribute)
        rw [many_of_some (c := c) (attributeAfter_getsOn '@' []) (by rw [hskip, hread]), ih hp₃]
        rfl
  have hall := Checked.all_map_ok id as
  rw [List.map_id] at hall
  rw [attributes, hmany]
  exact congrArg (·, c') hall

/-! ### Lines -/

/-- What is spelled on a line is read off it, up to blanks behind it. -/
def ReadsLine (read : Reader (Checked α)) (S : Position → α → List Char → Prop) : Prop :=
  ∀ ⦃c c₁ : Cursor⦄ ⦃a : α⦄ ⦃t : List Char⦄, S c.position a t → c.Passes t c₁ →
    EndsLine c₁.rest → ∃ c', read c = some (.ok a, c') ∧ skip c' = skip c₁

theorem identifier_reads {i : Identifier} {c c' : Cursor} (h : i.At c.position)
    (hp : c.Passes i.name.toList c') (hr : Stops extendsPath c'.rest) :
    identifier c = some (i, c') :=
  identifier_eq_some_iff.mpr ⟨h, hp, hr.mono fun _ => isNameChar_of_extendsPath⟩

/-- A name and the spaces before a second one. -/
theorem identifier_spaces_reads {i : Identifier} {s t : List Char} {c c₁ c₂ c₃ : Cursor}
    (h : i.At c.position) (hs : IsSpaces s) (hne : s ≠ []) (hp₁ : c.Passes i.name.toList c₁)
    (hp₂ : c₁.Passes s c₂) (hp₃ : c₂.Passes t c₃) (ht : ∃ x u, t = x :: u ∧ isNameStart x = true) :
    identifier c = some (i, c₁) ∧ skip c₁ = c₂ := by
  obtain ⟨x, u, hx, hstart⟩ := ht
  obtain ⟨y, s, rfl⟩ := List.exists_cons_of_ne_nil hne
  refine ⟨identifier_reads h hp₁ ?_, skip_spaces hs hp₂ ?_⟩
  · rw [hp₂.rest]
    exact .cons (extendsPath_of_isSpace (hs y (by simp)))
  · rw [hp₃.rest, hx]
    exact .cons (opensSkip_of_isNameStart hstart)

theorem type_reads {i : Identifier} {t : List Char} {c c' : Cursor}
    (h : SpelledType c.position i t) (hp : c.Passes t c') (hr : Stops extendsAttribute c'.rest) :
    (unsupported c <|> identifier c) = some (i, c') := by
  cases h with
  | name h =>
      rw [unsupported_refuses h.name hr c hp.rest]
      exact identifier_reads h hp (hr.mono fun x hx => by rw [extendsAttribute, hx, Bool.true_or])
  | @unsupported body hbody =>
      obtain ⟨c₁, hp₁, hp⟩ := hp.split
      obtain ⟨c₂, hp₂, hp⟩ := hp.split_cons
      obtain ⟨c₃, hp₃, hp₄⟩ := hp.split
      obtain ⟨q, hq⟩ := stringBody_reads hbody hp₃
      simp only [unsupported, hp₁.eat?, hp₂.eat?, hq, hp₄.eat?, Option.bind_eq_bind,
        Option.bind_some]
      rfl

theorem Arity.Spelled.stops {ar : Arity} {t rest : List Char} (h : ar.Spelled t)
    {q : Char → Bool} (hq : ∀ x, followsType x = true → q x = false) (hr : Stops q rest) :
    Stops q (t ++ rest) := by
  have hspace : ∀ x, isSpace x = true → q x = false := fun x hx => hq x (followsType_of_isSpace hx)
  cases h with
  | required => exact hr
  | optional hs => rw [List.append_assoc]; exact hs.stops hspace (.cons (hq _ rfl))
  | list hs hs' => rw [List.append_assoc]; exact hs.stops hspace (.cons (hq _ rfl))

/-- A type's mark and the attributes behind it. -/
theorem arity_attributes_reads {ar : Arity} {as : List Attribute} {u v : List Char}
    (harity : ar.Spelled u) (has : SpelledAttributes as v) {c c₁ : Cursor}
    (hp : c.Passes (u ++ v) c₁) (hr : EndsLine c₁.rest) :
    ∃ c', (arity (skip c)).1 = ar ∧ attributes (arity (skip c)).2 = (.ok as, c') ∧
      skip c' = skip c₁ := by
  cases harity with
  | required =>
      have hp : c.Passes v c₁ := hp
      -- nothing that could be a mark follows: neither the line's end nor an attribute begins so
      have hclear : Stops (fun x => x == '[' || x == '?') (skip c).rest := by
        cases has with
        | nil =>
            obtain rfl := hp.eq_of_nil
            exact hr.stops_skip.mono fun x hx => by
              rw [Bool.or_eq_true, beq_iff_eq, beq_iff_eq] at hx
              rcases hx with rfl | rfl <;> rfl
        | cons hs ha h =>
            obtain ⟨c₂, hp₂, hp₃⟩ := hp.split
            rw [skip_spaces hs hp₂ (by rw [hp₃.rest]; exact .cons rfl), hp₃.rest]
            exact .cons rfl
      have h₁ := Cursor.eat?_char_eq_none (x := '[') (hclear.mono fun x hx => by
        rw [hx, Bool.true_or])
      have h₂ := Cursor.eat?_char_eq_none (x := '?') (hclear.mono fun x hx => by
        rw [hx, Bool.or_true])
      have harity : arity (skip c) = (.required, skip c) := by
        simp only [arity, h₁, h₂, Option.bind_eq_bind, Option.bind_none]
      obtain ⟨hvalues, hskip⟩ := attributes_skip c
      rw [attributes_reads has hp hr] at hvalues hskip
      rw [harity]
      exact ⟨(attributes (skip c)).2, rfl, Prod.ext hvalues rfl, hskip⟩
  | optional hs =>
      obtain ⟨c₃, hp, hp₃⟩ := hp.split
      obtain ⟨c₂, hp₁, hp₂⟩ := hp.split
      have hskip := skip_spaces hs hp₁ (by rw [hp₂.rest]; exact .cons rfl)
      have h₁ := Cursor.eat?_char_eq_none (x := '[') (c := c₂) (by rw [hp₂.rest]; exact .cons rfl)
      have harity : arity (skip c) = (.optional, c₃) := by
        simp only [arity, hskip, h₁, hp₂.eat?, Option.bind_eq_bind, Option.bind_none]
      rw [harity]
      exact ⟨c₁, rfl, attributes_reads has hp₃ hr, rfl⟩
  | list hs hs' =>
      obtain ⟨c₅, hp, hp₅⟩ := hp.split
      obtain ⟨c₂, hp₁, hp⟩ := hp.split
      obtain ⟨c₃, hp₂, hp⟩ := hp.split_cons
      obtain ⟨c₄, hp₃, hp₄⟩ := hp.split
      have hskip := skip_spaces hs hp₁ (by rw [hp₂.rest]; exact .cons rfl)
      have hskip' := skip_spaces hs' hp₃ (by rw [hp₄.rest]; exact .cons rfl)
      have harity : arity (skip c) = (.list, c₅) := by
        simp only [arity, hskip, hp₂.eat?, hskip', hp₄.eat?, Option.bind_eq_bind, Option.bind_some]
      rw [harity]
      exact ⟨c₁, rfl, attributes_reads has hp₅ hr, rfl⟩

theorem field_reads : ReadsLine field Field.Spelled := by
  intro c c₁ f t h hp hr
  obtain @⟨name, type, ar, as, s, t, u, v, hname, hs, hne, htype, harity, has⟩ := h
  obtain ⟨c₂, hp₁, hp⟩ := hp.split
  obtain ⟨c₃, hp₂, hp⟩ := hp.split
  obtain ⟨c₄, hp₃, hp₄⟩ := hp.split
  obtain ⟨hi, hskip⟩ := identifier_spaces_reads hname hs hne hp₁ hp₂ hp₃ htype.opens
  have hτ := type_reads (c := c₃) (by rwa [(hp₁.trans hp₂).position]) hp₃ (by
    rw [hp₄.rest, List.append_assoc]
    exact harity.stops (fun _ => extendsAttribute_of_followsType)
      (has.stops (fun _ => extendsAttribute_of_followsType) hr.stops_attribute))
  obtain ⟨c', harity', has', hend⟩ := arity_attributes_reads harity has hp₄ hr
  refine ⟨c', ?_, hend⟩
  simp only [field, hi, hskip, hτ, harity', has', Option.bind_eq_bind, Option.bind_some]
  rfl

theorem enumValue_reads : ReadsLine enumValue EnumValue.Spelled := by
  intro c c₁ v t h hp hr
  obtain @⟨name, as, t, hname, has⟩ := h
  obtain ⟨c₂, hp₁, hp₂⟩ := hp.split
  have hi := identifier_reads hname hp₁ (by
    rw [hp₂.rest]
    exact has.stops (fun _ => extendsPath_of_followsType) hr.endsValue.1)
  have has' := attributes_reads has hp₂ hr
  refine ⟨c₁, ?_, rfl⟩
  simp only [enumValue, hi, has', Option.bind_eq_bind, Option.bind_some]
  rfl

theorem setting_reads : ReadsLine setting Setting.Spelled := by
  intro c c₁ v t h hp hr
  obtain @⟨key, value, s, s', t, hkey, hs, hs', hvalue⟩ := h
  obtain ⟨c₂, hp₁, hp⟩ := hp.split
  obtain ⟨c₃, hp₂, hp⟩ := hp.split
  obtain ⟨c₄, hp₃, hp⟩ := hp.split_cons
  obtain ⟨c₅, hp₄, hp₅⟩ := hp.split
  obtain ⟨x, w, hx, hopens⟩ := hvalue.opens
  have hi := identifier_reads hkey hp₁ (by
    rw [hp₂.rest, hp₃.rest]
    exact hs.stops (fun _ => extendsPath_of_isSpace) (.cons rfl))
  have hskip := skip_spaces hs hp₂ (by rw [hp₃.rest]; exact .cons rfl)
  have hskip' := skip_spaces hs' hp₄ (by
    rw [hp₅.rest, hx]
    exact .cons (opensSkip_of_opensValue hopens))
  have hv := expression_reads hvalue hp₅ hr.endsValue
  refine ⟨c₁, ?_, rfl⟩
  simp only [setting, hi, hskip, hp₃.eat?, hskip', hv, Option.bind_eq_bind, Option.bind_some]
  rfl

theorem line_reads {item : Reader (Checked α)} {S : Position → α → List Char → Prop}
    (h : ReadsLine item S) (none : ∀ rest, Refuses item ('@' :: rest)) :
    ReadsLine (line item) (Line.Spelled S) := by
  intro c c₁ l t hl hp hr
  cases hl with
  | item ha =>
      obtain ⟨c', hread, hskip⟩ := h ha hp hr
      refine ⟨c', ?_, hskip⟩
      simp only [line, hread, Option.map_some]
      rfl
  | @blockAttribute a t ha =>
      have hread := attributeAfter_reads ['@', '@'] ha hp hr.stops_attribute
      refine ⟨c₁, ?_, rfl⟩
      simp only [line, none _ c hp.rest, hread, Option.map_none, Option.map_some]
      rfl

end SchemaEnums.Schema
