import SchemaEnums.Proofs.Schema.SchemaTrees

/-!
# Schema — FirstFault

A fault is reported at the first place that is at fault (`Document.parse_before_fault`).

The rules go on behind a fault, so the tree of a text may hold more than what is before it.  What it
holds before the place that is reported is what the text before that place is read as, once the
block that is open there has been closed: nothing in front of the fault has been passed over or
taken for something else.  `LineTrees.before_fault` says so for the lines of a block,
`BlockTree.before_fault` for a block, and `BlockTrees.before_fault` for all of them.
-/

namespace SchemaEnums.Schema
open Text Text.Peg Text.Reader Grammar Literal

variable {α : Type} {c c₁ c' : Cursor} {p : Position} {f : Fault} {ts : List Rule.Tree}

/-! ### Lines -/

section Lines

variable {read : Reader (Checked α)} {S : Position → α → List Char → Prop}
  {walk : Rule.Tree → Walk.Walked α} {e : Pattern Rule} {fault : Fault}

/-- At the end of the text there are no more lines. -/
theorem LineTrees.eq_nil (h : LineTrees read walk c ts c') (hread : LineReader read S)
    (hc : c.rest = []) : ts = [] ∧ c' = c := by
  have hstay : skip c = c := skip_eq_self (by rw [hc]; exact stops_nil)
  cases h with
  | line hwhole =>
      rw [hstay, hread.wholeLine_refuses stops_nil c hc] at hwhole
      cases hwhole
  | blank _ hbreak =>
      rw [hstay, lineBreak_refuses stops_nil c hc] at hbreak
      cases hbreak
  | stray _ hend =>
      rw [hstay, lineEnd, hc] at hend
      cases hend
  | stop => exact ⟨rfl, hstay⟩

/-- Where the lines go on behind an item, so does the block. -/
theorem LineReader.lines_item (h : LineReader read S) {a : α}
    (hwhole : wholeLine read (skip c) = some (.ok a, c₁)) :
    lines read fault c = (lines read fault c₁).map fun r => (a :: r.1, r.2) := by
  show (linesFrom read fault c >>= _) = (linesFrom read fault c₁ >>= _).map _
  rw [h.linesFrom_item fault hwhole]
  cases linesFrom read fault c₁ with
  | error e => rfl
  | ok r =>
      obtain ⟨as, d⟩ := r
      cases hbrace : d.eat? ['}'] <;> simp [bind, Except.bind, hbrace, Except.map]

theorem LineReader.lines_error (h : LineReader read S) {e : SyntaxError}
    (hwhole : wholeLine read (skip c) = some (.error e, c₁)) :
    lines read fault c = .error e := by
  show (linesFrom read fault c >>= _) = _
  rw [h.linesFrom_eq, linesStep, hwhole]
  rfl

theorem LineReader.lines_blank (h : LineReader read S) (hwhole : wholeLine read (skip c) = none)
    (hbreak : lineBreak (skip c) = some ((), c₁)) : lines read fault c = lines read fault c₁ := by
  show (linesFrom read fault c >>= _) = (linesFrom read fault c₁ >>= _)
  rw [h.linesFrom_eq fault c, linesStep, hwhole, hbreak]

theorem LineReader.lines_stray (h : LineReader read S) (hwhole : wholeLine read (skip c) = none)
    (hend : lineEnd (skip c) = none) : lines read fault c = .error ⟨(skip c).position, fault⟩ := by
  show (linesFrom read fault c >>= _) = _
  rw [h.linesFrom_eq, linesStep, hwhole, lineBreak_of_lineEnd hend, hend]
  rfl

theorem LineReader.lines_skip (h : LineReader read S) (c : Cursor) :
    lines read fault (skip c) = lines read fault c := by
  show (linesFrom read fault (skip c) >>= _) = (linesFrom read fault c >>= _)
  rw [h.linesFrom_skip]

/-- At the end of the text a block lacks its brace. -/
theorem LineReader.lines_nil (h : LineReader read S) (hc : c.rest = []) :
    lines read fault c = .error ⟨c.position, .missingBrace⟩ := by
  show (linesFrom read fault c >>= _) = _
  rw [h.linesFrom_eq, h.linesStep_nil hc]
  simp [bind, Except.bind, Cursor.eat?, hc]

theorem LineReader.lines_brace (h : LineReader read S) {rest : List Char}
    (hc : c.rest = '}' :: rest) : lines read fault c = .ok ([], c.advance 1) := by
  have hstay : skip c = c := skip_eq_self (by rw [hc]; exact .cons rfl)
  show (linesFrom read fault c >>= _) = _
  rw [h.linesFrom_brace fault (by rw [hstay, hc]), hstay]
  simp [bind, Except.bind, Cursor.eat?_char hc]

/-- **The lines before a fault.**  They are spelled by what stands before it and a line break, and
the pairs of the block's lines that begin before it are walked to them. -/
theorem LineTrees.before_fault (h : LineTrees read walk c ts c') (hread : LineReader read S)
    (hline : LineRule read e walk fault) (hfails : Yields read Checked.FailsAtEscape)
    (he : lines read fault c = .error ⟨p, f⟩) (hf : f.isEscape = false) :
    ∃ as u d v, c.Passes u d ∧ d.position = p ∧ d.Passes v c' ∧
      SpelledLines S c.position as (u ++ ['\n']) ∧ Walk.lines walk (before p ts) = .ok as := by
  induction h with
  | @line c c₁ c' b t ts s hwhole ht hwalk hp hne h ih =>
      -- an item that is in error fails at an escape, and this fault is not at one
      cases b with
      | error e' =>
          rw [hread.lines_error hwhole] at he
          cases he
          have hescape := wholeLine_fails hfails hwhole _ rfl
          rw [hf] at hescape
          cases hescape
      | ok a =>
          rw [hread.lines_item hwhole, map_eq_error_iff] at he
          obtain ⟨s₁, t₁, c₀, hs, ha, -, hp₀, hend⟩ := hread.wholeLine_spells hwhole
          obtain ⟨s', hs', hp'⟩ := skip_spells_blank c₀
          have hcons : ∀ {u d as}, c₁.Passes u d → d.position = p →
              Walk.lines walk (before p ts) = .ok as →
              Walk.lines walk (before p (t :: ts)) = .ok (a :: as) := by
            rintro u d as hu rfl has
            have hbefore : t.position < d.position := by
              rw [ht]
              exact (hp.lt hne).trans_le hu.le
            rw [before_cons hbefore, Walk.lines, hwalk, has]
            rfl
          rcases lineEnd_cases hend with ⟨hnil, rfl⟩ | ⟨⟨rest, hbrace⟩, rfl⟩ | hbreak
          · -- the text is over behind the item
            obtain ⟨rfl, rfl⟩ := h.eq_nil hread hnil
            rw [hread.lines_nil hnil] at he
            cases he
            refine ⟨[a], s₁ ++ t₁ ++ s', skip c₀, [], hp₀.trans hp', rfl, .refl _, ?_,
              hcons (.refl _) rfl rfl⟩
            have hspelled : SpelledLines S c.position [a] (s₁ ++ (t₁ ++ (s' ++ '\n' :: []))) :=
              .item hs ha hs' rfl (.close isSpaces_nil)
            simpa using hspelled
          · -- behind the brace the lines are at an end, and not at fault
            rw [hread.lines_brace hbrace] at he
            cases he
          · obtain ⟨as, u, d, v, hu, hd, hv, hspelled, hlines⟩ := ih he
            obtain ⟨w, hw, hspelled⟩ :=
              hspelled.behind_item hs ha hs' (by simpa using hp₀.trans hp') hbreak
            exact ⟨a :: as, w ++ u, d, v, hw.trans hu, hd, hv, by simpa using hspelled,
              hcons hu hd hlines⟩
  | @blank c c₁ c' ts hwhole hbreak h ih =>
      rw [hread.lines_blank hwhole hbreak] at he
      obtain ⟨as, u, d, v, hu, hd, hv, hspelled, hlines⟩ := ih he
      obtain ⟨s, hs, hp⟩ := skip_spells_blank c
      obtain ⟨w, hw, hspelled⟩ := hspelled.behind_blank hs hp hbreak
      exact ⟨as, w ++ u, d, v, hw.trans hu, hd, hv, by simpa using hspelled, hlines⟩
  | @stray c c' text parts ts hwhole hend h _ =>
      -- the fault is where this line begins, so nothing is before it
      rw [hread.lines_stray hwhole hend] at he
      cases he
      have hall : LineTrees read walk c
          (⟨.blockLevelCatchAll, (skip c).position, text, parts⟩ :: ts) c' := .stray hwhole hend h
      obtain ⟨s, hs, hp⟩ := skip_spells_blank c
      obtain ⟨v, hv⟩ := hall.laid.passes
      refine ⟨[], s, skip c, v, hp, rfl, hv, .blank hs rfl (.close isSpaces_nil), ?_⟩
      rw [hall.laid.before_eq_nil (le_refl _)]
      rfl
  | @stop c hwhole hbreak hend =>
      rw [← hread.lines_skip] at he
      rcases (LineTrees.stop hwhole hbreak hend : LineTrees read walk c [] _).ends with hnil | hbrace
      · rw [hread.lines_nil hnil] at he
        cases he
        obtain ⟨s, hs, hp⟩ := skip_spells_blank c
        exact ⟨[], s, skip c, [], hp, rfl, .refl _, .blank hs rfl (.close isSpaces_nil), rfl⟩
      · obtain ⟨rest, hbrace⟩ := hbrace
        rw [hread.lines_brace hbrace] at he
        cases he

end Lines

/-! ### Blocks -/

section Parts

variable {read : Reader (Checked α)} {S : Position → α → List Char → Prop}
  {walk : Rule.Tree → Walk.Walked α} {e : Pattern Rule} {fault : Fault} {contents : Rule}
  {k : Keyword} {n : Identifier} {ps : List Rule.Tree} {accepts : Keyword → Bool}
  {line : Option Keyword → Rule.Tree → Walk.Walked α} {d : Cursor} {u : List Char}

/-- The name of a block begins before the block's contents. -/
theorem blockHead_name_before (h : blockHead c = some (k, n, c₁)) (hp : c₁.Passes u d) :
    n.position < d.position := by
  obtain ⟨s, s', -, -, hn, -, hhead⟩ := blockHead_eq_some_iff.mp h
  rw [headText, ← List.append_assoc] at hhead
  obtain ⟨c₂, hp₁, hp₂⟩ := hhead.split
  rw [hn.position, ← hp₁.position]
  exact (hp₂.lt (by simp)).trans_le hp.le

theorem blockHead_before (h : blockHead c = some (k, n, c₁)) (hp : c₁.Passes u d) :
    c.position < d.position := by
  obtain ⟨s, hne, hs⟩ := blockHead_passes h
  exact (hs.lt hne).trans_le hp.le

/-- What stands before the contents of a block has no parts. -/
theorem cut_head {p q r s : Position} {word : List Char} (hkeyword : p < s)
    (hname : q < s) (hbrace : r < s) :
    (before s (⟨.keyword k, p, word, []⟩ :: ⟨.identifier, q, n.name.toList, []⟩ ::
        ⟨.blockOpen, r, ['{'], []⟩ :: ts)).map (Pair.cut s 1) =
      ⟨.keyword k, p, word, []⟩ :: ⟨.identifier, q, n.name.toList, []⟩ ::
        ⟨.blockOpen, r, ['{'], []⟩ :: (before s ts).map (Pair.cut s 1) := by
  rw [before_mk hkeyword, before_mk hname, before_mk hbrace]
  rfl

/-- The parts of a block whose brace is there all begin before whatever is behind the block. -/
theorem BlockParts.cut_eq (h : BlockParts read walk contents k n c c₁ ps c')
    (hhead : blockHead c = some (k, n, c₁)) (hread : LineReader read S)
    (hline : LineRule read e walk fault) {as : List α} {c₂ : Cursor}
    (hok : lines read fault c₁ = .ok (as, c₂)) (hp : c'.Passes u d) :
    (before d.position ps).map (Pair.cut d.position 1) = ps := by
  obtain ⟨hopen, hts, hclose⟩ := h
  rename_i c₀ c₃ word text ts close
  cases hclose with
  | missing hnil =>
      -- without its brace the block would not have been read
      obtain ⟨⟨as', c₄⟩, hfrom, hend⟩ := bind_eq_ok_iff.mp hok
      obtain rfl := (hts.walk_eq hread hline).2 as' c₄ hfrom
      simp only [Cursor.eat?_char_eq_none (x := '}') (by rw [hnil]; exact stops_nil)] at hend
      cases hend
  | @close _ text' hbrace =>
      have hlast := (Cursor.eat?_passes hbrace).trans hp
      obtain ⟨s, hs⟩ := hts.laid.passes
      obtain ⟨v, hv⟩ := hts.passes
      have hcontents := (hs.trans hlast).lt (by simp)
      have hopened := ((Cursor.eat?_passes hopen).trans (hv.trans hlast)).lt (by simp)
      rw [cut_head (blockHead_before hhead (hv.trans hlast))
          (blockHead_name_before hhead (hv.trans hlast)) hopened,
        before_mk hcontents,
        before_mk (hlast.lt (by simp)), List.map_cons, Pair.cut_one,
        hts.laid.before_eq_self hlast.le]
      rfl

/-- The parts of a block that begin before a fault among its lines. -/
theorem BlockParts.before_fault (h : BlockParts read walk contents k n c c₁ ps c')
    (hhead : blockHead c = some (k, n, c₁)) (hread : LineReader read S)
    (hline : LineRule read e walk fault) (hfails : Yields read Checked.FailsAtEscape)
    (hparts : PartsRule accepts contents line walk k)
    (he : lines read fault c₁ = .error ⟨p, f⟩) (hf : f.isEscape = false) :
    ∃ as u d v, c₁.Passes u d ∧ d.position = p ∧ d.Passes v c' ∧
      SpelledLines S c₁.position as (u ++ ['\n']) ∧
      ((before p ps).map (Pair.cut p 1)).foldlM (Walk.blockPart accepts contents line)
        ⟨none, none, []⟩ = .ok ⟨some k, some n, as⟩ := by
  obtain ⟨hopen, hts, hclose⟩ := h
  rename_i c₀ c₃ word text ts close
  obtain ⟨as, u, d, v, hu, rfl, hv, hspelled, hlines⟩ := hts.before_fault hread hline hfails he hf
  have hkeyword := blockHead_before hhead hu
  have hname := blockHead_name_before hhead hu
  have hbrace := ((Cursor.eat?_passes hopen).trans hu).lt (by simp)
  have hclosed : before d.position [close] = [] ∧ ∃ w, c₃.Passes w c' := by
    cases hclose with
    | close h => exact ⟨before_mk_of_le hv.le, _, Cursor.eat?_passes h⟩
    | missing h => exact ⟨before_mk_of_le hv.le, [], .refl _⟩
  obtain ⟨hnone, w, hw⟩ := hclosed
  refine ⟨as, u, d, v ++ w, hu, rfl, hv.trans hw, hspelled, ?_⟩
  rw [cut_head hkeyword hname hbrace, hparts.head]
  by_cases hcontents : (skip c₁).position < d.position
  · rw [before_mk hcontents, hnone, List.map_cons, Pair.cut_one, hparts.lines, hlines]
    rfl
  · -- where the contents begin behind the fault, all lines do
    have hnil := hts.laid.before_eq_nil (not_lt.mp hcontents)
    rw [hnil] at hlines
    cases hlines
    rw [before_mk_of_le (not_lt.mp hcontents), hnone]
    rfl

end Parts

variable {t : Rule.Tree} {d : Cursor} {u : List Char} {k : Keyword} {n : Identifier}

/-- A block that is read is a pair that begins before whatever is behind the block, and so do all
pairs of its lines. -/
theorem BlockTree.cut_eq {b : Block} {c₂ : Cursor} (h : BlockTree c t c')
    (hhead : blockHead c = some (k, n, c₁)) (hbody : body k n c₁ = .ok (b, c₂))
    (hp : c'.Passes u d) : t.cut d.position 2 = t := by
  obtain ⟨rule, hhead', h⟩ := h
  rw [hhead] at hhead'
  cases hhead'
  rw [rule.body_eq] at hbody
  obtain ⟨r, hls, -⟩ := bind_eq_ok_iff.mp hbody
  exact congrArg (Pair.mk _ c.position _) (h.cut_eq hhead rule.lineReader rule.lineRule hls hp)

theorem Block.spelled_of_body {b : Block} (hhead : blockHead c = some (b.keyword, b.name, c₁))
    (hbody : b.SpelledBody c₁.position u) :
    ∃ s, c.Passes s c₁ ∧ b.Spelled c.position (s ++ (u ++ ['}'])) := by
  obtain ⟨s, s', hs, hne, hn, hs', hp⟩ := blockHead_eq_some_iff.mp hhead
  rw [hp.position] at hbody
  exact ⟨_, hp, .mk hs hne hn hs' hbody⟩

/-- **The block before a fault among its lines.**  It is spelled by what stands before the fault, a
line break and a brace, and what of its pair begins before the fault is walked to it. -/
theorem BlockTree.before_fault (h : BlockTree c t c') (hhead : blockHead c = some (k, n, c₁))
    (he : body k n c₁ = .error ⟨p, f⟩) (hf : f.isEscape = false) :
    ∃ b u d v, c.Passes u d ∧ d.position = p ∧ d.Passes v c' ∧ c.position < p ∧
      b.Spelled c.position (u ++ ['\n', '}']) ∧ Walk.top (t.cut p 2) = .ok (some b) := by
  obtain ⟨rule, hhead', h⟩ := h
  rw [hhead] at hhead'
  cases hhead'
  rw [rule.body_eq] at he
  have hls := eq_error_of_bind (fun _ => ⟨_, rfl⟩) he
  obtain ⟨ls, u, d, v, hu, hd, hv, hlines, hwalk⟩ :=
    h.before_fault hhead rule.lineReader rule.lineRule rule.fails rule.partsRule hls hf
  obtain ⟨s, hs, hb⟩ := Block.spelled_of_body (by rw [rule.keyword, rule.name]; exact hhead)
    (rule.spelled n hlines)
  refine ⟨_, s ++ u, d, v, hs.trans hu, hd, hv, ?_, by simpa using hb, rule.walked hwalk⟩
  rw [← hd]
  exact blockHead_before hhead hu

/-! ### Schemas -/

/-- What closes the text before a fault: a line break and a brace, if a block is open there. -/
def Fault.closing (f : Fault) : List Char := if f.isTop then [] else ['\n', '}']

/-- **The blocks before a fault.**  They are spelled by what stands before it, once the block that is
open there has been closed, and the pairs that begin before it are walked to them. -/
theorem BlockTrees.before_fault (h : BlockTrees c ts c') (he : blocksFrom c = .error ⟨p, f⟩)
    (hf : f.isEscape = false) :
    ∃ bs u d v, c.Passes u d ∧ d.position = p ∧ d.Passes v c' ∧
      SpelledBlocks c.position bs (u ++ f.closing) ∧
      Walk.tops ((before p ts).map (Pair.cut p 2)) = .ok bs := by
  induction h with
  | @block c c₁ c' t ts hbreak ht h ih =>
      obtain ⟨k, n, c₂, hhead, hwalk, hend⟩ := ht.walk_eq
      obtain ⟨s, hne, hs⟩ := ht.passes
      obtain ⟨x, s, rfl⟩ := List.exists_cons_of_ne_nil hne
      have hx : isLineBreak x = false := by
        have hsome := lineBreak_isSome hs.rest
        rw [hbreak] at hsome
        exact hsome.symm
      obtain ⟨s₀, hs₀, hp₀⟩ := skip_spells_before hs ⟨x, s, rfl, hx⟩
      rw [blocksFrom_eq, blocksStep_block hs.rest hbreak, hhead] at he
      rcases bind_eq_error_iff.mp he with hbody | ⟨⟨b, c₃⟩, hbody, hmore⟩
      · -- the fault is in this block, and the pairs behind the block are not before it
        obtain ⟨b, u, d, v, hu, rfl, hv, hlt, hb, htop⟩ := ht.before_fault hhead hbody hf
        obtain ⟨s₁, hs₁, -⟩ := skip_spells c₁
        obtain ⟨w, hw⟩ := h.laid.passes
        rw [hp₀.position] at hb
        have hblock := SpelledBlocks.block hs₀ hb (.nil (.spaces isSpaces_nil))
        refine ⟨[b], s₀ ++ u, d, v ++ (s₁ ++ w), hp₀.trans hu, rfl, hv.trans (hs₁.trans hw), ?_, ?_⟩
        · rw [Fault.closing, body_error_isTop hbody]
          simpa using hblock
        · rw [before_cons (by rwa [ht.position]), h.laid.before_eq_nil (hv.trans hs₁).le,
            List.map_cons, List.map_nil, Walk.tops, htop]
          rfl
      · -- the fault is behind this block, all of which is before it
        obtain rfl := hend b c₃ hbody
        obtain ⟨bs, u, d, v, hu, rfl, hv, hbs, hwalks⟩ :=
          ih (eq_error_of_bind (fun _ => ⟨_, rfl⟩) hmore)
        obtain ⟨w, hb, hw⟩ := block_eq_ok_iff.mp ⟨k, n, c₂, hhead, hbody⟩
        rw [hp₀.position] at hb
        rw [(hp₀.trans hw).position] at hbs
        have hbefore : t.position < d.position := by
          rw [ht.position]
          exact (hs.lt hne).trans_le hu.le
        refine ⟨b :: bs, _, d, v, hp₀.trans (hw.trans hu), rfl, hv, ?_, ?_⟩
        · simpa using SpelledBlocks.block hs₀ hb hbs
        · rw [before_cons hbefore, List.map_cons, ht.cut_eq hhead hbody hu, Walk.tops, hwalk, hbody,
            hwalks]
          rfl
  | @blank c c₁ c' ts hbreak h ih =>
      obtain ⟨y, t, -, -, hq⟩ := lineBreak_eq_some hbreak
      rw [blocksFrom_eq, blocksStep_lineBreak hq.rest hbreak] at he
      obtain ⟨bs, u, d, v, hu, hd, hv, hspelled, hwalk⟩ := ih he
      obtain ⟨s, hs, hp⟩ := skip_spells_blank c
      obtain ⟨w, hw, hspelled⟩ := hspelled.behind_blank hs hp hbreak
      exact ⟨bs, w ++ u, d, v, hw.trans hu, hd, hv, by simpa using hspelled, hwalk⟩
  | @stray c c₁ c' t ts s hrest hbreak hhead ht hwalk hp hne h _ =>
      -- no block opens here, and the fault is at this place
      obtain ⟨x, rest, hc⟩ := List.exists_cons_of_ne_nil hrest
      rw [blocksFrom_eq, blocksStep_block hc hbreak, hhead] at he
      cases he
      have hlaid := (BlockTrees.stray hrest hbreak hhead ht hwalk hp hne h).laid
      obtain ⟨s₀, hs₀, hp₀⟩ := skip_spells_blank c
      obtain ⟨v, hv⟩ := hlaid.passes
      refine ⟨[], s₀, skip c, v, hp₀, rfl, hv, ?_, ?_⟩
      · rw [Fault.closing, openingFault_isTop, if_pos rfl, List.append_nil]
        exact .nil hs₀
      · rw [hlaid.before_eq_nil (le_refl _)]
        rfl
  | stop hrest =>
      rw [blocksFrom_eq, blocksStep_nil hrest] at he
      cases he

/-- **Nothing before a fault is misread.**  Where a line or a block is at fault, the text before that
place is a schema of its own, once the block that is open there has been closed; and it says what
is said by those blocks, and lines of the open block, that begin before the place in the tree of
the whole text. -/
theorem Document.parse_before_fault (text : String) (p : Position) (f : Fault)
    (h : Document.parse text = .error ⟨p, f⟩) (hf : f.isEscape = false) :
    ∃ (tree : Rule.Tree) (c' : Cursor) (pre post : List Char) (d : Document),
      Matches datamodel .free (.rule .schema) (Cursor.ofText (withoutMark text.toList))
        (some ([tree], c')) ∧
      withoutMark text.toList = pre ++ post ∧ Position.start.afterAll pre = p ∧
      Document.parse (String.ofList (pre ++ f.closing)) = .ok d ∧
      Walk.document [tree.cut p 3] = .ok d := by
  obtain ⟨ts, c', s, hmatches, htrees⟩ := schema_matches (withoutMark text.toList)
  obtain ⟨bs, pre, d, v, hpre, rfl, hv, hspelled, hwalk⟩ :=
    htrees.before_fault (map_eq_error_iff.mp h) hf
  refine ⟨_, c', pre, d.rest, ⟨bs⟩, hmatches, hpre.rest, hpre.position.symm, ?_, ?_⟩
  · rw [Document.parse_eq_ok_iff, Document.Spelled, String.toList_ofList, hspelled.withoutMark_eq]
    exact hspelled
  · have hend : before d.position (ts ++ [⟨.endOfInput, c'.position, [], []⟩]) =
        before d.position ts := by
      rw [before_append, before_mk_of_le hv.le]
      exact List.append_nil _
    show (Walk.tops ((before d.position _).map (Pair.cut d.position 2))).map Document.mk = _
    rw [hend, hwalk]
    rfl

/-- Two enums; the second line of the second one is no value. -/
def twoValuesText : String :=
  "enum A \x7b\n  X @map(\"x\")\n\x7d\nenum B \x7b\n  Y // y\n  Z Z\n  V\n\x7d\n"

theorem Document.parse_before_fault_two_values :
    Document.parse twoValuesText = .error ⟨⟨6, 3⟩, .notEnumValue⟩ ∧
      Fault.isEscape .notEnumValue = false ∧
      ∃ (tree : Rule.Tree) (c' : Cursor) (pre post : List Char) (d : Document),
        Matches datamodel .free (.rule .schema) (Cursor.ofText (withoutMark twoValuesText.toList))
          (some ([tree], c')) ∧
        withoutMark twoValuesText.toList = pre ++ post ∧ Position.start.afterAll pre = ⟨6, 3⟩ ∧
        Document.parse (String.ofList (pre ++ Fault.closing .notEnumValue)) = .ok d ∧
        Walk.document [tree.cut ⟨6, 3⟩ 3] = .ok d :=
  ⟨rfl, rfl, Document.parse_before_fault twoValuesText ⟨6, 3⟩ .notEnumValue rfl rfl⟩

end SchemaEnums.Schema
