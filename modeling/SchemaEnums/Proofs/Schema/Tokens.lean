import SchemaEnums.Proofs.Schema.Exact

/-!
# Schema — Tokens

The tokens of a schema text: words, strings and marks.  Blanks, line breaks and comments outside
strings leave none.

A piece of a text has its tokens if what follows does not go on with its last word: `Lexes p t ts`
asks that the text behind `t` does not begin with a character of `p`.  Behind a bracket or a line
break anything may follow, so there `p` is `noChar`.
-/

namespace SchemaEnums.Schema
open Text Grammar Literal

/-- A name, path or number; the body of a string literal; or any other character. -/
inductive Token where
  | word   (text : List Char)
  | string (body : List Char)
  | mark   (x : Char)
deriving Repr, DecidableEq

/-- The tokens of a text.  A word is the longest run of the characters of paths, which are those of
numbers too. -/
def tokens : List Char → List Token
  | [] => []
  | '/' :: '/' :: rest => tokens (rest.dropWhile (!isLineBreak ·))
  | x :: rest =>
    if isSpace x || isLineBreak x then tokens rest
    else if x == '"' then
      .string (rest.take (bodyLength rest)) :: tokens (rest.drop (bodyLength rest + 1))
    else if extendsPath x then
      .word (x :: rest.takeWhile extendsPath) :: tokens (rest.dropWhile extendsPath)
    else .mark x :: tokens rest
termination_by t => t.length
decreasing_by
  · exact Nat.lt_succ_of_le (Nat.le_succ_of_le (List.dropWhile_sublist _).length_le)
  · exact Nat.lt_succ_self _
  · exact Nat.lt_succ_of_le (by rw [List.length_drop]; omega)
  · exact Nat.lt_succ_of_le (List.dropWhile_sublist _).length_le
  · exact Nat.lt_succ_self _

example : tokens "@a(1.5,) // b\n \"c\\\" // d\"".toList = [.mark '@', .word ['a'], .mark '(',
    .word ['1', '.', '5'], .mark ',', .mark ')', .string "c\\\" // d".toList] := by
  decide +kernel

/-- A character that is a token of its own. -/
def isMark (x : Char) : Bool := !(opensGap x || x == '"' || extendsPath x)

theorem extendsPath_of_isMark {x : Char} (h : isMark x = true) : extendsPath x = false := by
  simp only [isMark, Bool.not_eq_true', Bool.or_eq_false_iff] at h
  exact h.2

/-! ### One token -/

theorem tokens_blank {x : Char} (hx : (isSpace x || isLineBreak x) = true) (after : List Char) :
    tokens (x :: after) = tokens after := by
  rw [tokens, if_pos hx]
  rintro _ rfl
  exact absurd hx (by decide)

theorem tokens_comment {t after : List Char} (ht : ∀ x ∈ t, isLineBreak x = false)
    (hr : AtBreak after) : tokens ('/' :: '/' :: (t ++ after)) = tokens after := by
  rw [tokens, Stops.dropWhile (fun x hx => by rw [ht x hx]; rfl) hr]

theorem tokens_string {body : List Char} (h : IsBody body) (after : List Char) :
    tokens ('"' :: (body ++ '"' :: after)) = .string body :: tokens after := by
  have hlength := h.bodyLength_eq after
  have hdrop : (body ++ '"' :: after).drop (body.length + 1) = after := by
    rw [List.drop_append]
    simp
  rw [tokens, if_neg (by decide), if_pos (by decide), hlength, List.take_left, hdrop]
  rintro _ h _
  exact absurd h (by decide)

theorem tokens_word {n after : List Char} (hne : n ≠ []) (hn : ∀ x ∈ n, extendsPath x = true)
    (hr : Stops extendsPath after) : tokens (n ++ after) = .word n :: tokens after := by
  cases n with
  | nil => exact absurd rfl hne
  | cons x n =>
      obtain ⟨hx, hn⟩ := List.forall_mem_cons.mp hn
      have hgap : opensGap x = false := by
        by_contra hgap
        rw [extendsPath_of_opensGap (by simpa using hgap)] at hx
        cases hx
      have hquote : (x == '"') = false := by
        rw [beq_eq_false_iff_ne]
        rintro rfl
        exact absurd hx (by decide)
      simp only [opensGap, Bool.or_eq_false_iff] at hgap
      rw [List.cons_append, tokens, if_neg (by simp [hgap]), hquote, if_neg (by simp), if_pos hx,
        Stops.takeWhile hn hr, Stops.dropWhile hn hr]
      rintro _ rfl
      exact absurd hgap.1.2 (by decide)

theorem tokens_mark {x : Char} (hx : isMark x = true) (after : List Char) :
    tokens (x :: after) = .mark x :: tokens after := by
  simp only [isMark, opensGap, Bool.not_eq_true', Bool.or_eq_false_iff] at hx
  obtain ⟨⟨⟨⟨hspace, hslash⟩, hbreak⟩, hquote⟩, hword⟩ := hx
  rw [tokens, if_neg (by simp [hspace, hbreak]), hquote, hword, if_neg (by simp), if_neg (by simp)]
  rintro _ rfl
  exact absurd hslash (by decide)

/-! ### The tokens of a piece -/

/-- The piece has the tokens, whatever follows it, if that begins with none of the characters. -/
def Lexes (p : Char → Bool) (t : List Char) (ts : List Token) : Prop :=
  ∀ after, Stops p after → tokens (t ++ after) = ts ++ tokens after

/-- No character, so that anything may follow. -/
def noChar (_ : Char) : Bool := false

theorem stops_noChar (t : List Char) : Stops noChar t := fun _ _ => rfl

section Lexes

variable {p q : Char → Bool} {t u : List Char} {ts us : List Token}

theorem Lexes.tokens_append (h : Lexes noChar t ts) (after : List Char) :
    tokens (t ++ after) = ts ++ tokens after := h after (stops_noChar after)

theorem Lexes.anyhow (h : Lexes noChar t ts) : Lexes p t ts := fun after _ => h.tokens_append after

theorem Lexes.append (h : Lexes p t ts) (h' : Lexes q u us)
    (hstops : ∀ after, Stops q after → Stops p (u ++ after)) : Lexes q (t ++ u) (ts ++ us) := by
  intro after hafter
  rw [List.append_assoc, h _ (hstops after hafter), h' after hafter, List.append_assoc]

/-- Behind a piece that nothing can continue, any other. -/
theorem Lexes.append_anyhow (h : Lexes noChar t ts) (h' : Lexes q u us) :
    Lexes q (t ++ u) (ts ++ us) := h.append h' fun _ _ => stops_noChar _

end Lexes

theorem lexes_nil {p : Char → Bool} : Lexes p [] [] := fun _ _ => rfl

theorem lexes_mark {x : Char} (hx : isMark x = true) : Lexes noChar [x] [.mark x] :=
  fun after _ => tokens_mark hx after

theorem IsBody.lexes {body : List Char} (h : IsBody body) :
    Lexes noChar ('"' :: (body ++ ['"'])) [.string body] := fun after _ => by
  rw [List.cons_append, List.append_assoc]
  exact tokens_string h after

/-! ### Blanks -/

theorem IsSpaces.lexes {s : List Char} (h : IsSpaces s) : Lexes noChar s [] := by
  intro after _
  induction s with
  | nil => rfl
  | cons x s ih =>
      obtain ⟨hx, hs⟩ := List.forall_mem_cons.mp h
      rw [List.cons_append, tokens_blank (by rw [hx, Bool.true_or]), ih hs]

theorem lexes_space : Lexes noChar [' '] [] := IsSpaces.lexes (by simp [IsSpaces, isSpace])

theorem lexes_lineBreak {x : Char} (hx : isLineBreak x = true) : Lexes noChar [x] [] :=
  fun after _ => tokens_blank (by rw [hx, Bool.or_true]) after

/-- A blank has no tokens where its line ends. -/
theorem IsBlank.tokens_append {s : List Char} (h : IsBlank s) {after : List Char}
    (hr : AtBreak after) : tokens (s ++ after) = tokens after := by
  cases h with
  | spaces h => exact h.lexes.tokens_append after
  | comment h ht =>
      rw [List.append_assoc, h.lexes.tokens_append]
      exact tokens_comment ht hr

theorem IsBlank.lexes_line {s : List Char} (h : IsBlank s) {x : Char} (hx : isLineBreak x = true) :
    Lexes noChar (s ++ [x]) [] := fun after _ => by
  rw [List.append_assoc, List.singleton_append, h.tokens_append (atBreak_cons hx after)]
  exact (lexes_lineBreak hx).tokens_append after

theorem IsGap.lexes {g : List Char} (h : IsGap g) : Lexes noChar g [] := by
  induction h with
  | spaces h => exact h.lexes
  | @line s g x hs hx _ ih =>
      rw [List.append_cons]
      exact (hs.lexes_line hx).append_anyhow ih

/-! ### Words -/

/-- One or more characters of paths. -/
def IsWord (n : List Char) : Prop := n ≠ [] ∧ ∀ x ∈ n, extendsPath x = true

theorem IsWord.lexes {n : List Char} (h : IsWord n) : Lexes extendsPath n [.word n] :=
  fun _ => tokens_word h.1 h.2

/-- A word and the blank behind it. -/
theorem IsWord.lexes_spaces {n s : List Char} (h : IsWord n) (hs : IsSpaces s) (hne : s ≠ []) :
    Lexes noChar (n ++ s) [.word n] := by
  obtain ⟨x, s, rfl⟩ := List.exists_cons_of_ne_nil hne
  exact h.lexes.append hs.lexes fun _ _ => .cons (extendsPath_of_isSpace (hs x (by simp)))

theorem IsName.isWord {n : List Char} (h : IsName n) : IsWord n :=
  ⟨h.ne_nil, fun x hx => isNameChar_of_extendsPath (h.all x hx)⟩

theorem IsPath.isWord {p : List Char} (h : IsPath p) : IsWord p := by
  obtain ⟨n, ns, rfl, hns⟩ := h
  rw [intercalate_cons]
  refine ⟨List.append_ne_nil_of_left_ne_nil (hns n (by simp)).ne_nil _, fun x hx => ?_⟩
  simp only [List.mem_append, List.mem_flatMap] at hx
  rcases hx with hx | ⟨m, hm, hdot | hx⟩
  · exact (hns n (by simp)).isWord.2 x hx
  · rw [List.mem_singleton.mp hdot]
    rfl
  · exact (hns m (by simp [hm])).isWord.2 x hx

theorem IsNumber.isWord {n : List Char} (h : IsNumber n) : IsWord n := by
  obtain ⟨sign, whole, fraction, rfl, hsign, ⟨hne, hwhole⟩, hfraction⟩ := h
  have hdigit : ∀ x : Char, x.isDigit = true → extendsPath x = true := fun x hx =>
    extendsPath_of_extendsNumber (by rw [extendsNumber, hx, Bool.true_or])
  refine ⟨by simp [hne], fun x hx => ?_⟩
  simp only [List.mem_append] at hx
  rcases hx with (hx | hx) | hx
  · rcases hsign with rfl | rfl
    · cases hx
    · rw [List.mem_singleton.mp hx]
      rfl
  · exact hdigit x (hwhole x hx)
  · rcases hfraction with rfl | ⟨ds, rfl, -, hds⟩
    · cases hx
    · rcases List.mem_cons.mp hx with rfl | hx
      · rfl
      · exact hdigit x (hds x hx)

end SchemaEnums.Schema
