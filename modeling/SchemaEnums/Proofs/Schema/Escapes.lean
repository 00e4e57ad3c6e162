import SchemaEnums.Proofs.Schema.Kept

/-!
# Schema — Escapes

Which escapes the string literals of a schema hold.  A literal is decoded when its line is read, and
then every escape is one of JSON, or has a plus sign in place of its first hexadecimal digit
(`escapes_of_decode`).  The argument of `Unsupported` is not decoded, and anything may stand there
behind a backslash.  So a text that is read has escapes of JSON only exactly if no literal has the
plus sign and the arguments of `Unsupported` have no others (`json_escapes_iff`).

That each other literal was decoded is told from the tokens of the text (`Decoded`).  A piece of the
text `Decodes` if with it the tokens of what comes behind are still so; there is one such statement
for each form in which a piece can be spelled.
-/

namespace SchemaEnums.Schema
open Text Grammar Literal

variable {α β : Type}

/-! ### Escapes -/

/-- What stands behind each backslash of a string body that starts an escape. -/
def escapes : List Char → List (List Char)
  | '\\' :: x :: rest => (x :: rest) :: escapes rest
  | _ :: rest         => escapes rest
  | []                => []

/-- A hexadecimal digit. -/
def isHexDigit (c : Char) : Bool := (hexDigit? c).isSome

/-- An escape of JSON begins here: one of eight letters, or `u` and four hexadecimal digits. -/
def isJsonEscape : List Char → Bool
  | 'u' :: digits => (digits.take 4).length == 4 && (digits.take 4).all isHexDigit
  | x :: _        => x ∈ ['"', '\\', '/', 'b', 'f', 'n', 'r', 't']
  | []            => false

/-- A plus sign stands in place of the first of four hexadecimal digits. -/
def isSignedEscape : List Char → Bool
  | 'u' :: '+' :: digits => (digits.take 3).length == 3 && (digits.take 3).all isHexDigit
  | _                    => false

/-- Where no backslash stands, no escape begins. -/
theorem escapes_append {front : List Char} (h : ∀ x ∈ front, x ≠ '\\') (rest : List Char) :
    escapes (front ++ rest) = escapes rest := by
  induction front with
  | nil => rfl
  | cons x front ih =>
      obtain ⟨hx, hfront⟩ := List.forall_mem_cons.mp h
      rw [List.cons_append, escapes, ih hfront]
      rintro _ _ rfl _
      exact hx rfl

/-- What each step of a fold asks of its entry holds of all entries. -/
theorem forall_of_foldlM {f : α → β → Option α} {P : β → Prop}
    (hstep : ∀ a x a', f a x = some a' → P x) : ∀ {xs : List β} {a a' : α},
      xs.foldlM f a = some a' → ∀ x ∈ xs, P x := by
  intro xs
  induction xs with
  | nil => simp
  | cons x xs ih =>
      intro a a' h
      rw [List.foldlM_cons] at h
      obtain ⟨b, hb, h⟩ := Option.bind_eq_some_iff.mp h
      exact List.forall_mem_cons.mpr ⟨hstep a x b hb, ih h⟩

theorem isHexDigit_of_digitsValue? {base n : Nat} {digits : List Char}
    (h : digitsValue? base digits = some n) : ∀ d ∈ digits, isHexDigit d = true := by
  refine forall_of_foldlM (fun m c m' hstep => ?_) h
  obtain ⟨d, hd, -⟩ := Option.bind_eq_some_iff.mp hstep
  rw [isHexDigit, hd]
  rfl

theorem isHexDigit_of_natural? {base n : Nat} {digits : List Char}
    (h : natural? base digits = some n) : ∀ d ∈ digits, isHexDigit d = true := by
  rw [natural?] at h
  split at h
  case isTrue => cases h
  case isFalse => exact isHexDigit_of_digitsValue? h

/-- A code point is written with hexadecimal digits, or with a sign before them. -/
theorem digits_of_unicode? {digits : List Char} {x : Char} (h : unicode? digits = some x) :
    (∀ d ∈ digits, isHexDigit d = true) ∨
      ∃ more, digits = '+' :: more ∧ ∀ d ∈ more, isHexDigit d = true := by
  rw [unicode?.eq_def] at h
  split at h
  case h_1 more =>
    obtain ⟨n, hn, -⟩ := Option.bind_eq_some_iff.mp h
    exact .inr ⟨more, rfl, isHexDigit_of_natural? hn⟩
  case h_2 =>
    obtain ⟨n, hn, -⟩ := Option.bind_eq_some_iff.mp h
    exact .inl (isHexDigit_of_natural? hn)

theorem ne_backslash_of_isHexDigit {x : Char} (h : isHexDigit x = true) : x ≠ '\\' := by
  rintro rfl
  exact absurd h (by decide)

/-- What stands behind `\u` where a character was read. -/
theorem escapes_unicode {a b c d x : Char} (h : unicode? [a, b, c, d] = some x)
    (rest : List Char) : (isJsonEscape ('u' :: a :: b :: c :: d :: rest) = true ∨
        isSignedEscape ('u' :: a :: b :: c :: d :: rest) = true) ∧
      escapes (a :: b :: c :: d :: rest) = escapes rest := by
  rcases digits_of_unicode? h with hdigits | ⟨more, hmore, hdigits⟩
  · refine ⟨.inl ?_, @escapes_append [a, b, c, d] (fun y hy => ?_) rest⟩
    · simpa [isJsonEscape] using hdigits
    · exact ne_backslash_of_isHexDigit (hdigits y hy)
  · obtain ⟨rfl, rfl⟩ := List.cons.inj hmore
    refine ⟨.inr ?_, @escapes_append ['+', b, c, d] ?_ rest⟩
    · simpa [isSignedEscape] using hdigits
    · exact List.forall_mem_cons.mpr
        ⟨by decide, fun y hy => ne_backslash_of_isHexDigit (hdigits y hy)⟩

theorem isJsonEscape_of_shortEscape? {c x : Char} (h : shortEscape? c = some x)
    (rest : List Char) : isJsonEscape (c :: rest) = true := by
  rw [shortEscape?.eq_def] at h
  split at h <;> first | rfl | cases h

/-- **What stands behind the backslashes of a literal that is decoded.** -/
theorem escapes_of_decode {body value : List Char} (h : decode body = .ok value) :
    ∀ e ∈ escapes body, isJsonEscape e = true ∨ isSignedEscape e = true := by
  -- in the cases where `decode` fails there is nothing to show
  induction body using decode.induct generalizing value with
  | case1 => exact List.forall_mem_nil _
  | case2 a b c d rest x hx ih =>
      rw [decode.eq_2, hx] at h
      obtain ⟨value', hvalue', -⟩ := map_eq_ok_iff.mp h
      obtain ⟨hescape, hrest⟩ := escapes_unicode hx rest
      rw [escapes, hrest]
      exact List.forall_mem_cons.mpr ⟨hescape, ih hvalue'⟩
  | case3 a b c d rest hx =>
      rw [decode.eq_2, hx] at h
      cases h
  | case4 rest hshort =>
      rw [decode.eq_3 _ hshort] at h
      cases h
  | case5 c rest hlong hu x hx ih =>
      rw [decode.eq_4 _ _ hlong hu, hx] at h
      obtain ⟨value', hvalue', -⟩ := map_eq_ok_iff.mp h
      rw [escapes]
      exact List.forall_mem_cons.mpr ⟨.inl (isJsonEscape_of_shortEscape? hx rest), ih hvalue'⟩
  | case6 c rest hlong hu hx =>
      rw [decode.eq_4 _ _ hlong hu, hx] at h
      cases h
  | case7 => exact List.forall_mem_nil _
  | case8 c rest hlong hu hescape hlast ih =>
      rw [decode.eq_6 _ _ hlong hu hescape hlast] at h
      obtain ⟨value', hvalue', -⟩ := map_eq_ok_iff.mp h
      -- a backslash has been taken up by the cases above
      have hc : c ≠ '\\' := by
        cases rest with
        | nil => exact fun hc => hlast hc rfl
        | cons x rest => exact fun hc => hescape x rest hc rfl
      rw [← List.singleton_append, escapes_append (by simpa using hc)]
      exact ih hvalue'

/-! ### Tokens whose strings are decoded -/

/-- The strings among the tokens are decoded, but for the arguments of `Unsupported`. -/
inductive Decoded : List Token → Prop where
  | nil : Decoded []
  | word (n : List Char) {ts : List Token} (h : Decoded ts) : Decoded (.word n :: ts)
  | mark (x : Char) {ts : List Token} (h : Decoded ts) : Decoded (.mark x :: ts)
  | string {body value : List Char} {ts : List Token} (hdecode : decode body = .ok value)
      (h : Decoded ts) : Decoded (.string body :: ts)
  | unsupported (name body : List Char) {ts : List Token} (h : Decoded ts) :
      Decoded (.word name :: .word "Unsupported".toList :: .mark '(' :: .string body :: ts)

theorem Decoded.append {ts us : List Token} (h : Decoded ts) (h' : Decoded us) :
    Decoded (ts ++ us) := by
  induction h with
  | nil => exact h'
  | word n _ ih => exact .word n ih
  | mark x _ ih => exact .mark x ih
  | string hdecode _ ih => exact .string hdecode ih
  | unsupported name body _ ih => exact .unsupported name body ih

/-- A string literal, and whether it is the argument of a field's type `Unsupported`. -/
structure Quoted where
  body          : List Char
  isUnsupported : Bool
deriving Repr, DecidableEq

/-- The tokens, the last one first, end where the argument of a field's type `Unsupported` stands.
A function of that name has a mark before it, and not the name of a field. -/
def opensUnsupported : List Token → Bool
  | .mark '(' :: .word type :: .word _ :: _ => type == "Unsupported".toList
  | _                                       => false

/-- The string literals among the tokens, behind those that were seen. -/
def literalsFrom (seen : List Token) : List Token → List Quoted
  | .string body :: ts => ⟨body, opensUnsupported seen⟩ :: literalsFrom (.string body :: seen) ts
  | x :: ts            => literalsFrom (x :: seen) ts
  | []                 => []

/-- The string literals of a text, comments aside. -/
def literals (text : String) : List Quoted :=
  literalsFrom [] (tokens (withoutMark text.toList))

theorem Decoded.literals {ts : List Token} (h : Decoded ts) : ∀ seen : List Token,
    ∀ q ∈ literalsFrom seen ts, q.isUnsupported = false → ∃ value, decode q.body = .ok value := by
  induction h with
  | nil => simp [literalsFrom]
  | word n _ ih => exact fun seen => ih (.word n :: seen)
  | mark x _ ih => exact fun seen => ih (.mark x :: seen)
  | @string body value _ hdecode _ ih =>
      exact fun seen =>
        List.forall_mem_cons.mpr ⟨fun _ => ⟨value, hdecode⟩, ih (.string body :: seen)⟩
  | unsupported name body _ ih =>
      -- the literal at their head is the argument
      exact fun seen => List.forall_mem_cons.mpr ⟨fun hplain => (nomatch hplain), ih _⟩

/-! ### Pieces -/

/-- Before tokens whose strings are decoded the piece leaves them so, as long as no character of `p`
follows. -/
def Decodes (p : Char → Bool) (t : List Char) : Prop :=
  ∀ after, Stops p after → Decoded (tokens after) → Decoded (tokens (t ++ after))

section Pieces

variable {p q : Char → Bool} {s t u : List Char} {ts : List Token}

theorem Lexes.decodes (h : Lexes p t ts) (hts : Decoded ts) : Decodes p t :=
  fun after hafter hdecoded => by
    rw [h after hafter]
    exact hts.append hdecoded

theorem Decodes.anyhow (h : Decodes noChar t) : Decodes p t :=
  fun after _ hdecoded => h after (stops_noChar after) hdecoded

theorem Decodes.append (h : Decodes p t) (h' : Decodes q u)
    (hstops : ∀ after, Stops q after → Stops p (u ++ after)) : Decodes q (t ++ u) := by
  intro after hafter hdecoded
  rw [List.append_assoc]
  exact h _ (hstops after hafter) (h' after hafter hdecoded)

/-- Behind a piece that nothing can continue, any other. -/
theorem Decodes.append_anyhow (h : Decodes noChar t) (h' : Decodes q u) : Decodes q (t ++ u) :=
  h.append h' fun _ _ => stops_noChar _

theorem mark_decodes {x : Char} (hx : isMark x = true) : Decodes noChar [x] :=
  (lexes_mark hx).decodes (.mark x .nil)

theorem IsSpaces.decodes (h : IsSpaces s) : Decodes noChar s := h.lexes.decodes .nil

theorem IsGap.decodes (h : IsGap s) : Decodes noChar s := h.lexes.decodes .nil

theorem IsWord.decodes (h : IsWord t) : Decodes extendsPath t := h.lexes.decodes (.word t .nil)

end Pieces

/-! ### Values -/

section Lists

variable {opening closing : Char} {ts : List (List Char)} {t u : List Char}

theorem ListTail.decodes (hclosing : closing = ')' ∨ closing = ']')
    (values : ∀ v ∈ ts, Decodes extendsPath v) (h : ListTail closing ts u) : Decodes noChar u := by
  have hclose : Decodes noChar [closing] := by
    rcases hclosing with rfl | rfl <;> exact mark_decodes rfl
  have hcomma : Decodes noChar [','] := mark_decodes rfl
  induction h with
  | close hg => exact hg.decodes.append_anyhow hclose
  | comma hg hg' =>
      exact hg.decodes.append_anyhow (hcomma.append_anyhow (hg'.decodes.append_anyhow hclose))
  | item hg hg' h ih =>
      obtain ⟨hvalue, hvalues⟩ := List.forall_mem_cons.mp values
      have hitem := hvalue.append (ih hvalues) fun after _ => (h.endsValue hclosing after).1
      exact hg.decodes.append_anyhow (hcomma.append_anyhow (hg'.decodes.append_anyhow hitem))

theorem Listed.decodes (hopening : isMark opening = true) (hclosing : closing = ')' ∨ closing = ']')
    (values : ∀ v ∈ ts, Decodes extendsPath v) (h : Listed opening closing ts t) :
    Decodes noChar t := by
  have hopen : Decodes noChar [opening] := mark_decodes hopening
  have hclose : Decodes noChar [closing] := by
    rcases hclosing with rfl | rfl <;> exact mark_decodes rfl
  cases h with
  | empty hg => exact hopen.append_anyhow (hg.decodes.append_anyhow hclose)
  | items hg h =>
      obtain ⟨hvalue, hvalues⟩ := List.forall_mem_cons.mp values
      have hitems := hvalue.append (h.decodes hclosing hvalues) fun after _ =>
        (h.endsValue hclosing after).1
      exact hopen.append_anyhow (hg.decodes.append_anyhow hitems)

end Lists

theorem Labelled.decodes {name : Option String} {label t : List Char} (h : Labelled name label)
    (ht : Decodes extendsPath t) : Decodes extendsPath (label ++ t) := by
  cases h with
  | none => exact ht
  | @some n s s' hn hs hs' =>
      have hcolon : Decodes noChar [':'] := mark_decodes rfl
      have hbehind := hs.decodes.append_anyhow (hcolon.append_anyhow hs'.decodes)
      exact (hn.isWord.decodes.append hbehind fun after _ => by
        rw [List.append_assoc]
        exact hs.stops (fun _ => extendsPath_of_isSpace) (.cons rfl)).append_anyhow ht

theorem Expression.Spelled.decodes {e : Expression} {t : List Char} (h : e.Spelled t) :
    Decodes extendsPath t := by
  induction h with
  | string hbody hdecode => exact hbody.lexes.anyhow.decodes (.string hdecode .nil)
  | number h => exact h.isWord.decodes
  | constant h => exact h.isWord.decodes
  | @call path s t items hpath hs labels _ list ih =>
      have hlist := list.decodes rfl (.inl rfl) fun v hv => by
        obtain ⟨i, hi, rfl⟩ := List.mem_map.mp hv
        exact (labels i hi).decodes (ih i hi)
      exact (hpath.isWord.decodes.append (hs.decodes.append_anyhow hlist) fun after _ => by
        rw [List.append_assoc]
        exact hs.stops (fun _ => extendsPath_of_isSpace) (list.stops rfl after)).anyhow
  | @array t items _ list ih =>
      exact (list.decodes rfl (.inr rfl) fun v hv => by
        obtain ⟨i, hi, rfl⟩ := List.mem_map.mp hv
        exact ih i hi).anyhow

/-! ### Attributes -/

/-- An attribute behind its marker. -/
theorem Attribute.Spelled.decodes {a : Attribute} {t : List Char} (h : a.Spelled t) :
    Decodes extendsPath t := by
  cases h with
  | bare hname => exact hname.isWord.decodes
  | @listed name t items hname hitems list =>
      have hlist := list.decodes rfl (.inl rfl) fun v hv => by
        obtain ⟨i, hi, rfl⟩ := List.mem_map.mp hv
        exact (hitems i hi).label.decodes (hitems i hi).value.decodes
      exact (hname.isWord.decodes.append hlist fun after _ => list.stops rfl after).anyhow

theorem SpelledAttributes.decodes {as : List Attribute} {t : List Char}
    (h : SpelledAttributes as t) : Decodes extendsPath t := by
  have hmarker : Decodes noChar ['@'] := mark_decodes rfl
  induction h with
  | nil => exact lexes_nil.decodes .nil
  | @cons a as s t u hs ha h ih =>
      have hrest := ha.decodes.append ih fun after hafter =>
        h.stops (fun _ => extendsPath_of_followsType) hafter
      exact hs.decodes.append_anyhow (hmarker.append_anyhow hrest)

/-! ### Lines -/

theorem Arity.Spelled.decodes {ar : Arity} {t : List Char} (h : ar.Spelled t) :
    Decodes extendsPath t := by
  have hopen : Decodes noChar ['['] := mark_decodes rfl
  have hclose : Decodes noChar [']'] := mark_decodes rfl
  have hoptional : Decodes noChar ['?'] := mark_decodes rfl
  cases h with
  | required => exact lexes_nil.decodes .nil
  | optional hs => exact (hs.decodes.append_anyhow hoptional).anyhow
  | list hs hs' =>
      exact (hs.decodes.append_anyhow
        (hopen.append_anyhow (hs'.decodes.append_anyhow hclose))).anyhow

/-- The name of a field and its type.  The argument of an unsupported type may be anything. -/
theorem SpelledType.decodes {p : Position} {type : Identifier} {n s t : List Char} (hn : IsName n)
    (hs : IsSpaces s) (hne : s ≠ []) (h : SpelledType p type t) :
    Decodes extendsPath (n ++ (s ++ t)) := by
  have hname : Lexes noChar (n ++ s) [.word n] := hn.isWord.lexes_spaces hs hne
  rw [← List.append_assoc]
  cases h with
  | name h => exact (hname.decodes (.word n .nil)).append_anyhow h.name.isWord.decodes
  | @unsupported body hbody =>
      have hword : IsWord "Unsupported".toList :=
        IsName.isWord (by decide : IsName "Unsupported".toList)
      have hopen : Lexes noChar ['('] [.mark '('] := lexes_mark rfl
      have hclose : Lexes noChar [')'] [.mark ')'] := lexes_mark rfl
      have htype := hname.append_anyhow (hword.lexes.append
        (hopen.append_anyhow (hbody.lexes.append_anyhow hclose)) fun _ _ => .cons rfl)
      exact (htype.decodes (.unsupported n body (.mark ')' .nil))).anyhow

theorem Field.Spelled.decodes {p : Position} {f : Field} {t : List Char} (h : f.Spelled p t) :
    Decodes extendsPath t := by
  obtain @⟨name, type, ar, as, s, t, u, v, hname, hs, hne, htype, harity, has⟩ := h
  have hattributes : ∀ after, Stops extendsPath after → Stops extendsPath (v ++ after) :=
    fun after hafter => has.stops (fun _ => extendsPath_of_followsType) hafter
  have hmarks := harity.decodes.append has.decodes hattributes
  have hfield := (htype.decodes hname.name hs hne).append hmarks fun after hafter => by
    rw [List.append_assoc]
    exact harity.stops (fun _ => extendsPath_of_followsType) (hattributes after hafter)
  simpa using hfield

theorem EnumValue.Spelled.decodes {p : Position} {v : EnumValue} {t : List Char}
    (h : v.Spelled p t) : Decodes extendsPath t := by
  obtain ⟨hname, has⟩ := h
  exact hname.name.isWord.decodes.append has.decodes fun after hafter =>
    has.stops (fun _ => extendsPath_of_followsType) hafter

theorem Setting.Spelled.decodes {p : Position} {x : Setting} {t : List Char}
    (h : x.Spelled p t) : Decodes extendsPath t := by
  obtain @⟨key, value, s, s', t, hkey, hs, hs', hvalue⟩ := h
  have hequals : Decodes noChar ['='] := mark_decodes rfl
  have hrest := hs.decodes.append_anyhow
    (hequals.append_anyhow (hs'.decodes.append_anyhow hvalue.decodes))
  exact hkey.name.isWord.decodes.append hrest fun after _ => by
    rw [List.append_assoc]
    exact hs.stops (fun _ => extendsPath_of_isSpace) (.cons rfl)

section Lines

variable {S : Position → α → List Char → Prop}

theorem Grammar.Line.Spelled.decodes (hS : ∀ p a t, S p a t → Decodes extendsPath t) {p : Position}
    {l : Line α} {t : List Char} (h : l.Spelled S p t) : Decodes extendsPath t := by
  have hmarker : Decodes noChar ['@'] := mark_decodes rfl
  cases h with
  | item h => exact hS _ _ _ h
  | blockAttribute h => exact hmarker.append_anyhow (hmarker.append_anyhow h.decodes)

theorem SpelledLines.decodes (hS : ∀ p a t, S p a t → Decodes extendsPath t) {p : Position}
    {as : List α} {u : List Char} (h : SpelledLines S p as u) : Decodes extendsPath u := by
  induction h with
  | close hs => exact hs.decodes.anyhow
  | @last p a s s' t hs ha hs' =>
      have hline := (hS _ _ _ ha).append (hs'.decodes.anyhow (p := extendsPath))
        fun after hafter => hs'.stops (fun _ => extendsPath_of_isSpace) hafter
      exact hs.decodes.append_anyhow hline
  | @blank p as s u x hs hx h ih =>
      have hline := ((hs.lexes_line hx).decodes .nil).append_anyhow ih
      simpa using hline
  | @item p a as s s' t u x hs ha hs' hx h ih =>
      have hbehind := ((hs'.lexes_line hx).decodes .nil).append_anyhow ih
      have hline := (hS _ _ _ ha).append hbehind fun after _ => by
        rw [List.append_assoc, List.append_assoc]
        exact (endsLine_of_blank hs' hx _).endsValue.1
      simpa using hs.decodes.append_anyhow hline

end Lines

/-! ### Blocks -/

theorem Block.SpelledBody.decodes {p : Position} {b : Block} {u : List Char}
    (h : b.SpelledBody p u) : Decodes extendsPath u := by
  cases h with
  | model h => exact h.decodes fun _ _ _ hl => hl.decodes fun _ _ _ hf => hf.decodes
  | enum h => exact h.decodes fun _ _ _ hl => hl.decodes fun _ _ _ hv => hv.decodes
  | config h => exact h.decodes fun _ _ _ hs => hs.decodes

theorem Block.Spelled.decodes {p : Position} {b : Block} {t : List Char} (h : b.Spelled p t) :
    Decodes noChar t := by
  obtain @⟨s, s', u, hs, hne, hname, hs', hbody⟩ := h
  have hbrace : Decodes noChar ['}'] := mark_decodes rfl
  have hhead := (headText_lexes (isName_word b.keyword) hname.name hs hne hs').decodes
    (.word _ (.word _ (.mark '{' .nil)))
  exact hhead.append_anyhow (hbody.decodes.append hbrace fun _ _ => .cons rfl)

theorem SpelledBlocks.decoded {p : Position} {bs : List Block} {t : List Char}
    (h : SpelledBlocks p bs t) : Decoded (tokens t) := by
  induction h with
  | @nil p s hs =>
      have htokens := hs.tokens_append stops_nil
      rw [List.append_nil] at htokens
      rw [htokens, tokens]
      exact .nil
  | @line p bs s u x hs hx h ih =>
      rw [List.append_cons, (hs.lexes_line hx).tokens_append]
      exact ih
  | @block p b bs s t u hs hb h ih =>
      rw [hs.lexes.tokens_append]
      exact hb.decodes u (stops_noChar u) ih

/-! ### The literals of a schema -/

theorem escapes_of_parse {text : String} {d : Document} (h : Document.parse text = .ok d) :
    ∀ q ∈ literals text, q.isUnsupported = false →
      ∀ e ∈ escapes q.body, isJsonEscape e = true ∨ isSignedEscape e = true := by
  have hdecoded : Decoded (tokens (withoutMark text.toList)) :=
    (Document.parse_eq_ok_iff.mp h).decoded
  intro q hq hplain
  obtain ⟨value, hvalue⟩ := hdecoded.literals [] q hq hplain
  exact escapes_of_decode hvalue

/-- The plus sign is no digit. -/
theorem isSignedEscape_eq_false {e : List Char} (h : isJsonEscape e = true) :
    isSignedEscape e = false := by
  rw [isSignedEscape.eq_def]
  split
  case h_1 digits =>
    have hplus : isHexDigit '+' = false := by decide
    simp [isJsonEscape, hplus] at h
  case h_2 => rfl

/-- **The escapes of a schema's literals.**  A text that is read has escapes of JSON only exactly if
no literal has a plus sign in place of a digit, the arguments of `Unsupported` aside, and those have
escapes of JSON only.  A text with any other escape in any other literal is not read. -/
theorem json_escapes_iff (text : String) :
    (∀ d, Document.parse text = .ok d →
      ((∀ q ∈ literals text, ∀ e ∈ escapes q.body, isJsonEscape e = true) ↔
        ∀ q ∈ literals text, ∀ e ∈ escapes q.body,
          if q.isUnsupported = true then isJsonEscape e = true else isSignedEscape e = false)) ∧
    ∀ q ∈ literals text, q.isUnsupported = false → ∀ e ∈ escapes q.body,
      isJsonEscape e = false → isSignedEscape e = false →
        ∃ error, Document.parse text = .error error := by
  refine ⟨fun d h => forall₂_congr fun q hq => forall₂_congr fun e he => ?_,
    fun q hq hplain e he hjson hsigned => ?_⟩
  · split
    case isTrue => rfl
    case isFalse hplain =>
      have hescape := escapes_of_parse h q hq (by simpa using hplain) e he
      constructor
      · exact isSignedEscape_eq_false
      · intro hsigned
        rw [hsigned] at hescape
        simpa using hescape
  · cases h : Document.parse text with
    | error error => exact ⟨error, rfl⟩
    | ok d =>
        have hescape := escapes_of_parse h q hq hplain e he
        rw [hjson, hsigned] at hescape
        simp at hescape

/-- A model whose one field has the type and the attributes. -/
def oneField (behind : String) : String := "model M \x7b\n  a " ++ behind ++ "\n\x7d\n"

theorem json_escapes_one_field :
    (∃ d, Document.parse (oneField "Unsupported(\"\\t\") @map(\"\\u0041\\n\")") = .ok d) ∧
      (∀ q ∈ literals (oneField "Unsupported(\"\\t\") @map(\"\\u0041\\n\")"),
        ∀ e ∈ escapes q.body, isJsonEscape e = true) ∧
      ∃ error, Document.parse (oneField "Int @map(\"\\q\")") = .error error :=
  ⟨⟨_, rfl⟩, ((json_escapes_iff _).1 _ rfl).mpr (by decide +kernel),
    (json_escapes_iff _).2 ⟨"\\q".toList, false⟩ (by decide +kernel) rfl "q".toList (by decide) rfl
      rfl⟩

/-- Not every text that is read has escapes of JSON only. -/
theorem signed_escape_is_read :
    ((∃ d, Document.parse (oneField "Int @map(\"\\u+041\")") = .ok d) ∧
      ∃ q ∈ literals (oneField "Int @map(\"\\u+041\")"), ∃ e ∈ escapes q.body,
        isJsonEscape e = false) ∧
    (∃ d, Document.parse (oneField "Unsupported(\"\\q\")") = .ok d) ∧
      ∃ q ∈ literals (oneField "Unsupported(\"\\q\")"), ∃ e ∈ escapes q.body,
        isJsonEscape e = false :=
  ⟨⟨⟨_, rfl⟩, by decide +kernel⟩, ⟨_, rfl⟩, by decide +kernel⟩

end SchemaEnums.Schema
