import SchemaEnums.Proofs.Schema.BlockTrees

/-!
# Schema — SchemaTrees

Every text has a tree (`Document.tree_of_text`).

`BlockTrees` goes through a text block by block, as `LineTrees` goes through a block line by line:
where no block opens, a line or a block of another kind is passed and has a pair of its own.  The
rules end at the end of the text, and the walk of the pairs comes to what the reader comes to.
-/

namespace SchemaEnums.Schema
open Text Text.Peg Text.Reader Grammar Literal

variable {c c₁ c' : Cursor}

/-! ### Blocks of other kinds -/

theorem closes_spaces {s : List Char} (hs : IsSpaces s) (rest : List Char) :
    closes false (s ++ rest) = closes false rest := by
  induction s with
  | nil => rfl
  | cons x s ih =>
      obtain ⟨hx, hmore⟩ := List.forall_mem_cons.mp hs
      rw [isSpace, Bool.or_eq_true, beq_iff_eq, beq_iff_eq] at hx
      rcases hx with rfl | rfl
      · exact ih hmore
      · exact ih hmore

/-- A comment hides the braces in it, and ends at its line break. -/
theorem closes_comment {t rest : List Char} (ht : ∀ x ∈ t, isLineBreak x = false)
    (hr : AtBreak rest) : closes true (t ++ rest) = closes false rest := by
  induction t with
  | nil =>
      cases rest with
      | nil => rfl
      | cons x rest =>
          have hx : isLineBreak x = true := by
            have h := stops_cons.mp hr
            rwa [Bool.not_eq_false'] at h
          rw [List.nil_append, closes, closes, if_pos rfl, hx]
          simp only [isLineBreak, Bool.or_eq_true, beq_iff_eq] at hx
          rcases hx with rfl | rfl <;> rfl
  | cons x t ih =>
      obtain ⟨hx, ht⟩ := List.forall_mem_cons.mp ht
      rw [List.cons_append, closes, if_pos rfl, hx]
      exact ih ht

theorem closes_skip (c : Cursor) : closes false (skip c).rest = closes false c.rest := by
  obtain ⟨s, hp, hs | ⟨hblank, hbreak⟩⟩ := skip_spells c
  · rw [hp.rest, closes_spaces hs]
  · rw [hp.rest]
    cases hblank with
    | spaces hs => rw [closes_spaces hs]
    | comment hs ht =>
        rw [List.append_assoc, closes_spaces hs]
        exact (closes_comment ht hbreak).symm

/-- Behind blanks and comments, a character that is no brace makes no difference. -/
theorem closes_behind {x : Char} {rest : List Char} (hc : (skip c).rest = x :: rest)
    (hx : x ≠ '}') : closes false ((skip c).advance 1).rest = closes false c.rest := by
  have hcomment : (x == '/' && rest.head? == some '/') = false := by
    by_contra h
    simp only [Bool.not_eq_false, Bool.and_eq_true, beq_iff_eq] at h
    obtain ⟨rfl, h⟩ := h
    obtain ⟨rest', rfl⟩ : ∃ rest', rest = '/' :: rest' := by
      cases rest with
      | nil => cases h
      | cons y rest' => exact ⟨rest', by rw [Option.some.inj h]⟩
    -- a comment would have been passed
    have hspaces : (skip c).skipWhile isSpace = skip c := skipWhile_stay (by rw [hc]; exact .cons rfl)
    have hlength := congrArg (fun d : Cursor => d.rest.length) (skip_skip c)
    rw [skip, hspaces, hc] at hlength
    have hlt := ((skip c).skipWhile_passes (!isLineBreak ·)).length
    rw [hc, List.takeWhile_cons_of_pos rfl] at hlt
    simp only [List.length_cons] at hlength hlt
    omega
  rw [← closes_skip c, hc, closes, hcomment, beq_false_of_ne hx, Cursor.rest_advance, hc]
  rfl

/-- What is passed up to a closing brace, or to the end of the text if none follows. -/
theorem upToClose_matches (c : Cursor) : ∃ d,
    Matches datamodel .free (.many (.seq (.not (.rule .blockClose)) Rule.any)) (skip c)
      (some ([], d)) ∧
      if closes false c.rest = true then ∃ rest, (skip d).rest = '}' :: rest
      else (skip d).rest = [] := by
  obtain ⟨_, d, hd, rfl, hend⟩ := many_turns (c := c)
    (e := .seq (.not (.rule .blockClose)) Rule.any) (T := fun c ts d => ts = [] ∧
      if closes false c.rest = true then ∃ rest, d.rest = '}' :: rest else d.rest = [])
    fun d _ => by
      have hbetween := between_free (skip d)
      rw [skip_skip] at hbetween
      -- at each turn the text is over, or the brace is there, or one more character is passed
      cases hd : (skip d).rest with
      | nil =>
          have hclose := blockClose_refuses (c := skip d) (by rw [hd]; exact stops_nil)
          have hany := char_read_stops (p := fun _ => true) (c := skip d) (by rw [hd]; exact stops_nil)
          refine .inl ⟨.seqRight (.not hclose) hbetween (.terminalNone hany), rfl, ?_⟩
          rw [← closes_skip d, hd]
          rfl
      | cons x rest =>
          by_cases hx : x = '}'
          · subst hx
            obtain ⟨text, hclose⟩ := blockClose_matches (Cursor.eat?_char hd)
            refine .inl ⟨.seqLeft (.notNone hclose), rfl, ?_⟩
            rw [← closes_skip d, hd]
            exact ⟨rest, rfl⟩
          · have hclose := blockClose_refuses (c := skip d)
              (by rw [hd]; exact .cons (beq_false_of_ne hx))
            have hany := char_read_cons (p := fun _ => true) hd
            have hlength := skip_length d
            refine .inr ⟨[], (skip d).advance 1,
              .seq (.not hclose) hbetween (.terminal hany), ?_, fun ts c' hT => ?_⟩
            · rw [hd, List.length_cons] at hlength
              rw [Cursor.rest_advance, hd, List.drop_one, List.tail_cons]
              omega
            · dsimp only at hT
              rwa [closes_behind hd hx] at hT
  exact ⟨d, hd, hend⟩

/-- A block of another kind is one pair, which begins with the word that opens it. -/
theorem arbitraryBlock_matches {w n : Identifier} (hopening : opening c = some ((w, n), c₁))
    (hcloses : closes false c₁.rest = true) :
    ∃ text parts c', Matches datamodel .free (.rule .arbitraryBlock) c
      (some ([⟨.arbitraryBlock, c.position, text,
        ⟨.identifier, w.position, w.name.toList, []⟩ :: parts⟩], c')) ∧
      c'.rest.length < c.rest.length := by
  obtain ⟨d₁, d₂, hw, hn, hbrace⟩ := opening_steps.mp hopening
  have hword := identifier_follows (m := .free) (by decide) c
  rw [hw] at hword
  obtain ⟨_, hword, rfl⟩ := hword
  obtain ⟨d, hup, hend⟩ := upToClose_matches c₁
  rw [if_pos hcloses] at hend
  obtain ⟨rest, hend⟩ := hend
  obtain ⟨text, hclose⟩ := blockClose_matches (Cursor.eat?_char hend)
  have hbody := Matches.seq hword (between_free d₁)
    (nameOpen_matches hn hbrace (.seq hup (between_free d) hclose))
  refine ⟨_, _, _, hbody.leaves (m := .free) (r := Rule.arbitraryBlock) rfl rfl, ?_⟩
  obtain ⟨_, _, -, -, -, -, -, hhead⟩ := opening_eq_some_iff.mp hopening
  obtain ⟨_, hpasses⟩ := hup.passes
  have h₁ := hhead.length
  have h₂ := skip_length c₁
  have h₃ := hpasses.length
  have h₄ := skip_length d
  simp only [Cursor.rest_advance, hend, List.drop_one, List.tail_cons, List.length_cons] at h₄ ⊢
  omega

theorem arbitraryBlock_refuses
    (h : ∀ w n c₁, opening c = some ((w, n), c₁) → closes false c₁.rest = false) :
    Matches datamodel .free (.rule .arbitraryBlock) c none := by
  have hword := identifier_follows (m := .free) (by decide) c
  cases hw : identifier c with
  | none =>
      rw [hw] at hword
      exact .ruleNone (.seqLeft hword)
  | some r =>
      obtain ⟨w, d₁⟩ := r
      rw [hw] at hword
      obtain ⟨_, hword, rfl⟩ := hword
      refine .ruleNone (.seqRight hword (between_free d₁)
        (nameOpen_refuses fun n d₂ d₃ hn hbrace => ?_))
      have hnone := h w n d₃ (opening_steps.mpr ⟨d₁, d₂, hw, hn, hbrace⟩)
      obtain ⟨d, hup, hend⟩ := upToClose_matches d₃
      rw [if_neg (by rw [hnone]; decide)] at hend
      exact .seqRight hup (between_free d) (blockClose_refuses (by rw [hend]; exact stops_nil))

/-- **Where no block opens, one pair is left, and its walk is the fault of the place.** -/
theorem stray_matches {x : Char} {rest : List Char} (hc : c.rest = x :: rest)
    (hx : isLineBreak x = false) : ∃ t c',
    Matches datamodel .free (.choice (.rule .arbitraryBlock) (.rule .catchAll)) c
      (some ([t], c')) ∧ c'.rest.length < c.rest.length ∧ t.position = c.position ∧
      Walk.top t = .error (.fault ⟨c.position, openingFault c⟩) := by
  by_cases h : ∀ w n c₁, opening c = some ((w, n), c₁) → closes false c₁.rest = false
  · have hend : ((Terminal.char (!isLineBreak ·)).read c).map (fun _ => behindLine c) =
        some (behindLine c) := by
      rw [char_read_cons hc, hx]
      rfl
    have hline := recognizes_line.leaf (m := .free) (r := Rule.catchAll) rfl (by decide) hend
    have hfault : openingFault c = .strayLine := by
      rw [openingFault]
      split
      case h_1 w n c₁ hopening => rw [h w n c₁ hopening]; rfl
      case h_2 => rfl
    exact ⟨_, _, .second (arbitraryBlock_refuses h) hline, behindLine_length hc hx, rfl,
      by rw [hfault]; rfl⟩
  · simp only [not_forall, Bool.not_eq_false] at h
    obtain ⟨w, n, c₁, hopening, hcloses⟩ := h
    obtain ⟨text, parts, c', hblock, hlt⟩ := arbitraryBlock_matches hopening hcloses
    refine ⟨_, c', .first hblock, hlt, rfl, ?_⟩
    rw [openingFault, hopening, Walk.top, Walk.firstText, String.ofList_toList]
    simp only [hcloses, if_true]

/-- At the end of the text no pair is left. -/
theorem stray_refuses (hc : c.rest = []) :
    Matches datamodel .free (.choice (.rule .arbitraryBlock) (.rule .catchAll)) c none := by
  have hline := recognizes_line.leafNone (c := c) (m := .free) (r := Rule.catchAll) rfl (by
    rw [char_read_stops (by rw [hc]; exact stops_nil)]
    rfl)
  refine .second (arbitraryBlock_refuses fun w n c₁ h => ?_) hline
  obtain ⟨_, _, -, -, -, -, -, hp⟩ := opening_eq_some_iff.mp h
  have hnil := hp.rest
  rw [hc] at hnil
  simp [headText] at hnil

/-! ### Schemas -/

/-- The blocks from a place on, the pairs they leave, and the end of the text.  What is no block is
left as it is, and the blocks go on behind it. -/
inductive BlockTrees : Cursor → List Rule.Tree → Cursor → Prop where
  | block {c c₁ c' : Cursor} {t : Rule.Tree} {ts : List Rule.Tree}
      (hbreak : lineBreak (skip c) = none) (ht : BlockTree (skip c) t c₁)
      (h : BlockTrees c₁ ts c') : BlockTrees c (t :: ts) c'
  | blank {c c₁ c' : Cursor} {ts : List Rule.Tree} (hbreak : lineBreak (skip c) = some ((), c₁))
      (h : BlockTrees c₁ ts c') : BlockTrees c ts c'
  | stray {c c₁ c' : Cursor} {t : Rule.Tree} {ts : List Rule.Tree} {s : List Char}
      (hrest : (skip c).rest ≠ []) (hbreak : lineBreak (skip c) = none)
      (hhead : blockHead (skip c) = none) (ht : t.position = (skip c).position)
      (hwalk : Walk.top t = .error (.fault ⟨(skip c).position, openingFault (skip c)⟩))
      (hp : (skip c).Passes s c₁) (hne : s ≠ []) (h : BlockTrees c₁ ts c') :
      BlockTrees c (t :: ts) c'
  | stop {c : Cursor} (hrest : (skip c).rest = []) : BlockTrees c [] (skip c)

/-- What stands at top level, one piece after another. -/
def Rule.tops : Pattern Rule :=
  oneOf newline [.rule modelDeclaration, .rule enumDeclaration, .rule configBlock,
    .rule arbitraryBlock, .rule catchAll]

theorem schema_turn (c : Cursor) : Turn Rule.tops BlockTrees c := by
  have hlength := skip_length c
  have hbreak := newline_follows (m := .free) (skip c)
  -- a line break, else a block, else a stray line; at the end of the text none of them
  cases hb : lineBreak (skip c) with
  | some r =>
      rw [hb] at hbreak
      obtain ⟨ps, hps, rfl⟩ := hbreak
      have hlt := lineBreak_length hb
      exact .inr ⟨[], _, .first hps, by omega, fun ts c' hts => .blank hb hts⟩
  | none =>
      rw [hb] at hbreak
      cases hhead : blockHead (skip c) with
      | some r =>
          obtain ⟨k, n, c₁⟩ := r
          obtain ⟨t, c', ht, htree⟩ := blocks_matches hhead
          obtain ⟨s, hne, hp⟩ := htree.passes
          have hlt := hp.length
          have hpos := List.length_pos_iff.mpr hne
          exact .inr ⟨[t], c', .second hbreak ht, by omega, fun ts d hts => .block hb htree hts⟩
      | none =>
          cases hc : (skip c).rest with
          | nil =>
              exact .inl ⟨.second hbreak (blocks_refuse hhead (stray_refuses hc)), .stop hc⟩
          | cons x rest =>
              have hx : isLineBreak x = false := by
                have h := lineBreak_isSome hc
                rw [hb] at h
                exact h.symm
              obtain ⟨t, c', ht, hlt, hposition, hwalk⟩ := stray_matches hc hx
              obtain ⟨s, hp⟩ := ht.passes
              exact .inr ⟨[t], c', .second hbreak (blocks_refuse hhead ht), by omega,
                fun ts d hts => .stray (by rw [hc]; exact List.cons_ne_nil x rest) hb hhead hposition
                  hwalk hp (hp.ne_nil hlt) hts⟩

/-- The pairs at top level begin one behind the other, behind the blanks before the first. -/
theorem BlockTrees.laid {ts : List Rule.Tree} (h : BlockTrees c ts c') : Laid (skip c) ts c' := by
  induction h with
  | @block _ c₁ _ _ _ _ ht _ ih =>
      obtain ⟨u, hne, hp⟩ := ht.passes
      obtain ⟨s, hs, -⟩ := skip_spells c₁
      exact .cons (.refl _) ht.position hp hne (ih.behind hs)
  | @blank _ c₁ _ _ hbreak _ ih =>
      obtain ⟨x, u, -, -, hp⟩ := lineBreak_eq_some hbreak
      obtain ⟨s, hs, -⟩ := skip_spells c₁
      exact ih.behind (hp.trans hs)
  | @stray _ c₁ _ _ _ _ _ _ _ ht _ hp hne _ ih =>
      obtain ⟨s, hs, -⟩ := skip_spells c₁
      exact .cons (.refl _) ht hp hne (ih.behind hs)
  | stop => exact .nil (.refl _)

theorem BlockTrees.ends {ts : List Rule.Tree} (h : BlockTrees c ts c') : c'.rest = [] := by
  induction h with
  | block _ _ _ ih => exact ih
  | blank _ _ ih => exact ih
  | stray _ _ _ _ _ _ _ _ ih => exact ih
  | stop hrest => exact hrest

/-- **The pairs of the blocks are walked to what the reader reads.** -/
theorem BlockTrees.walk_eq {ts : List Rule.Tree} (h : BlockTrees c ts c') :
    Walk.tops ts = Walk.ofChecked (blocksFrom c) := by
  induction h with
  | @block c c₁ c' t ts hbreak ht _ ih =>
      obtain ⟨k, n, d, hhead, hwalk, hend⟩ := ht.walk_eq
      obtain ⟨x, rest, hc⟩ : ∃ x rest, (skip c).rest = x :: rest := by
        obtain ⟨s, hne, hp⟩ := ht.passes
        cases s with
        | nil => exact absurd rfl hne
        | cons x s => exact ⟨x, _, hp.rest⟩
      rw [Walk.tops, hwalk, ih, blocksFrom_eq c, blocksStep_block hc hbreak, hhead]
      simp only
      cases hbody : body k n d with
      | error e => rfl
      | ok r =>
          obtain rfl := hend r.1 r.2 hbody
          show (Walk.ofChecked (blocksFrom r.2) >>= _) = Walk.ofChecked (blocksFrom r.2 >>= _)
          cases blocksFrom r.2 <;> rfl
  | @blank c c₁ c' ts hbreak _ ih =>
      obtain ⟨x, u, -, -, hp⟩ := lineBreak_eq_some hbreak
      rw [ih, blocksFrom_eq c, blocksStep_lineBreak hp.rest hbreak]
  | @stray c c₁ c' t ts s hrest hbreak hhead ht hwalk hp hne _ ih =>
      obtain ⟨x, rest, hc⟩ := List.exists_cons_of_ne_nil hrest
      rw [Walk.tops, hwalk, blocksFrom_eq, blocksStep_block hc hbreak, hhead]
      rfl
  | @stop c hrest => rw [blocksFrom_eq, blocksStep_nil hrest]; rfl

theorem tops_endOfInput (ts : List Rule.Tree) (p : Position) (text : List Char)
    (parts : List Rule.Tree) : Walk.tops (ts ++ [⟨.endOfInput, p, text, parts⟩]) = Walk.tops ts := by
  induction ts with
  | nil => rfl
  | cons t ts ih => rw [List.cons_append, Walk.tops, ih, Walk.tops]

/-- The whole text is passed, and one pair is left for it. -/
theorem schema_matches (text : List Char) : ∃ ts c' s,
    Matches datamodel .free (.rule .schema) (Cursor.ofText text)
      (some ([⟨.schema, .start, s, ts ++ [⟨.endOfInput, c'.position, [], []⟩]⟩], c')) ∧
      BlockTrees (Cursor.ofText text) ts c' := by
  obtain ⟨ts, d, hts, htrees⟩ := many_turns (c := Cursor.ofText text) fun d _ => schema_turn d
  have hstart : Matches datamodel .free (.terminal .start) (Cursor.ofText text)
      (some ([], Cursor.ofText text)) := .terminal rfl
  have hfinish : Matches datamodel .free (.terminal .finish) (skip d) (some ([], skip d)) :=
    .terminal (by simp [Terminal.read, htrees.ends])
  have hend := hfinish.leaves (m := .free) (r := Rule.endOfInput) rfl rfl
  rw [passed_of_passes (.refl _)] at hend
  have hbody := Matches.seq hstart (between_free _) (.seq hts (between_free d) hend)
  exact ⟨ts, skip d, _, hbody.leaves (m := .free) (r := Rule.schema) rfl rfl, htrees⟩

/-- **Every text has a tree.**  The rules come to an end, pass the whole text and leave one pair for
it, and nothing else.  The walk through that pair never meets a part that cannot be there: it comes
to the schema that the reader reads, or to the fault that it reports.  That is one of the eight
there are, and what is reported as an unknown keyword is none of the six. -/
theorem Document.tree_of_text (text : String) : ∃ (tree : Rule.Tree) (c' : Cursor),
    (∀ x, Matches datamodel .free (.rule .schema) (Cursor.ofText (withoutMark text.toList)) x ↔
      x = some ([tree], c')) ∧
    c'.rest = [] ∧
    Walk.document [tree] = Walk.ofChecked (Document.parse text) ∧
    Walk.document [tree] ≠ .error .impossible ∧
    ∀ e, Document.parse text = .error e →
      e.fault = .missingBrace ∨
      e.fault = .notField ∨ e.fault = .notEnumValue ∨
      e.fault = .notSetting .datasource ∨ e.fault = .notSetting .generator ∨
      e.fault = .strayLine ∨
      (∃ word, e.fault = .unknownKeyword word ∧
        word ∉ ["model", "view", "type", "enum", "datasource", "generator"]) ∨
      (∃ x, e.fault = .unknownEscape x) ∨ e.fault = .invalidUnicodeEscape := by
  obtain ⟨ts, c', s, hmatches, htrees⟩ := schema_matches (withoutMark text.toList)
  have hwalk : Walk.document [⟨.schema, .start, s, ts ++ [⟨.endOfInput, c'.position, [], []⟩]⟩] =
      Walk.ofChecked (Document.parse text) := by
    rw [Walk.document, tops_endOfInput, htrees.walk_eq, Document.parse_eq, Walk.ofChecked_map]
  refine ⟨_, c', fun x => ⟨fun h => h.unique hmatches, fun h => by rw [h]; exact hmatches⟩,
    htrees.ends, hwalk, fun h => ?_, fun ⟨q, f⟩ h => ?_⟩
  · rw [hwalk] at h
    cases hparse : Document.parse text <;> rw [hparse] at h <;> cases h
  · -- all faults are in the list but for unknown keywords, of which the block words are none
    cases f with
    | unknownKeyword word =>
        have hnone := Document.parse_unknownKeyword h
        have hword : word ∉ ["model", "view", "type", "enum", "datasource", "generator"] := by
          intro hword
          simp only [List.mem_cons, List.not_mem_nil, or_false] at hword
          rcases hword with rfl | rfl | rfl | rfl | rfl | rfl <;> cases hnone
        exact .inr (.inr (.inr (.inr (.inr (.inr (.inl ⟨word, rfl, hword⟩))))))
    | notSetting kind => cases kind <;> simp
    | missingBrace | strayLine | notField | notEnumValue | unknownEscape _ |
      invalidUnicodeEscape => simp

end SchemaEnums.Schema
