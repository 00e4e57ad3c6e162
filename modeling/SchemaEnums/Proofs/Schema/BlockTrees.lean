import SchemaEnums.Proofs.Schema.Faults
import SchemaEnums.Proofs.Schema.LineTrees

/-!
# Schema — BlockTrees

A block and the pair it leaves.

`BlockTree` takes a block apart as its rule does: the keyword, the name, the opening brace, the
contents with the pairs of the lines (`LineTrees`), and the closing brace or what stands for one
that is missing.  The pair is walked to what the reader reads behind the head of the block
(`BlockTree.walk_eq`).  Where the reader finds no head, the rules of blocks refuse
(`blocks_refuse`).
-/

namespace SchemaEnums.Schema
open Text Text.Peg Text.Reader Grammar Literal

variable {α : Type} {c c₁ c₂ c' : Cursor} {e : Pattern Rule}

/-! ### Keywords -/

/-- A keyword of some kinds. -/
def keywordAt (accepts : Keyword → Bool) : Reader Keyword := fun c =>
  (identifier c).bind fun (i, c') => ((Keyword.ofWord? i.name).filter accepts).map (·, c')

/-- The pair of a keyword. -/
def IsKeyword (p : Position) (k : Keyword) (ps : List Rule.Tree) : Prop :=
  ∃ text, ps = [⟨.keyword k, p, text, []⟩]

theorem filter_ofWord? (w : String) (k : Keyword) :
    (Keyword.ofWord? w).filter (· == k) = if w = k.word then some k else none := by
  by_cases hw : w = k.word
  · rw [if_pos hw, ofWord?_eq_some_iff.mpr hw]
    simp
  · rw [if_neg hw, Option.filter_eq_none_iff]
    intro k' hk'
    rw [Bool.not_eq_true, beq_eq_false_iff_ne]
    rintro rfl
    exact hw (ofWord?_eq_some_iff.mp hk')

theorem keyword_follows (k : Keyword) (c : Cursor) :
    Follows datamodel .free (.rule (.keyword k)) (IsKeyword c.position) c
      (keywordAt (· == k) c) := by
  have h := recognizes_keyword k
  cases hi : identifier c with
  | none =>
      simp only [keywordAt, hi, Option.bind_none]
      exact h.leafNone rfl (by rw [hi, Option.bind_none])
  | some r =>
      obtain ⟨i, c'⟩ := r
      simp only [keywordAt, hi, Option.bind_some, filter_ofWord?]
      by_cases hname : i.name = k.word
      · rw [if_pos hname]
        exact ⟨_, h.leaf rfl (by decide) (by
          rw [hi, Option.bind_some]
          exact if_pos hname), _, rfl⟩
      · rw [if_neg hname]
        exact h.leafNone rfl (by
          rw [hi, Option.bind_some]
          exact if_neg hname)

/-- One of some keywords. -/
theorem keywords_follow (ks : List Keyword) (k : Keyword) (c : Cursor) :
    Follows datamodel .free (Rule.oneOf (.rule (.keyword k)) (ks.map fun k => .rule (.keyword k)))
      (IsKeyword c.position) c (keywordAt (k :: ks).contains c) := by
  induction ks generalizing k with
  | nil =>
      have hone : (List.contains [k] : Keyword → Bool) = (· == k) := by
        funext k'
        simp
        rfl
      rw [hone]
      exact keyword_follows k c
  | cons k' ks ih =>
      have hread : keywordAt (k :: k' :: ks).contains c =
          (keywordAt (· == k) c <|> keywordAt (k' :: ks).contains c) := by
        simp only [keywordAt]
        cases identifier c with
        | none => rfl
        | some r =>
            simp only [Option.bind_some]
            cases Keyword.ofWord? r.1.name with
            | none => rfl
            | some k₁ =>
                rw [Option.filter_some, Option.filter_some, Option.filter_some]
                by_cases hk : k₁ = k
                · simp [hk]
                · simp [hk]
      rw [hread]
      exact (keyword_follows k c).choice (ih k')

/-! ### Where a block opens -/

theorem keywordAt_eq_some_iff {accepts : Keyword → Bool} {k : Keyword} :
    keywordAt accepts c = some (k, c') ↔
      ∃ i, identifier c = some (i, c') ∧ Keyword.ofWord? i.name = some k ∧ accepts k = true := by
  simp only [keywordAt, Option.bind_eq_some_iff, Option.map_eq_some_iff, Option.filter_eq_some_iff,
    Prod.exists, Prod.mk.injEq]
  constructor
  · rintro ⟨i, _, hi, _, ⟨hk, haccepts⟩, rfl, rfl⟩
    exact ⟨i, hi, hk, haccepts⟩
  · rintro ⟨i, hi, hk, haccepts⟩
    exact ⟨i, c', hi, k, ⟨hk, haccepts⟩, rfl, rfl⟩

/-- The steps of an opening. -/
theorem opening_steps {w n : Identifier} : opening c = some ((w, n), c') ↔ ∃ c₁ c₂,
    identifier c = some (w, c₁) ∧ identifier (skip c₁) = some (n, c₂) ∧
      (skip c₂).eat? ['{'] = some c' := by
  simp only [opening, Option.bind_eq_bind, Option.bind_eq_some_iff, Option.some.injEq,
    Prod.mk.injEq, Prod.exists]
  constructor
  · rintro ⟨_, c₁, hw, _, c₂, hn, c₃, hbrace, ⟨rfl, rfl⟩, rfl⟩
    exact ⟨c₁, c₂, hw, hn, hbrace⟩
  · rintro ⟨c₁, c₂, hw, hn, hbrace⟩
    exact ⟨w, c₁, hw, n, c₂, hn, c', hbrace, ⟨rfl, rfl⟩, rfl⟩

theorem blockHead_steps {k : Keyword} {n : Identifier} : blockHead c = some (k, n, c') ↔
    ∃ w c₁ c₂, identifier c = some (w, c₁) ∧ Keyword.ofWord? w.name = some k ∧
      identifier (skip c₁) = some (n, c₂) ∧ (skip c₂).eat? ['{'] = some c' := by
  simp only [blockHead, Option.bind_eq_some_iff, Option.map_eq_some_iff, Prod.exists, Prod.mk.injEq]
  constructor
  · rintro ⟨w, _, _, hopening, _, hk, rfl, rfl, rfl⟩
    obtain ⟨c₁, c₂, hw, hn, hbrace⟩ := opening_steps.mp hopening
    exact ⟨w, c₁, c₂, hw, hk, hn, hbrace⟩
  · rintro ⟨w, c₁, c₂, hw, hk, hn, hbrace⟩
    exact ⟨w, n, c', opening_steps.mpr ⟨c₁, c₂, hw, hn, hbrace⟩, k, hk, rfl, rfl, rfl⟩

theorem blockOpen_refuses (h : c.eat? ['{'] = none) :
    Matches datamodel .free (.rule .blockOpen) c none := .ruleNone (.terminalNone h)

theorem blockOpen_matches (h : c.eat? ['{'] = some c') :
    Matches datamodel .free (.rule .blockOpen) c
      (some ([⟨.blockOpen, c.position, ['{'], []⟩], c')) := by
  have hbody := (one_matches (m := .free) h).leaves (m := .free) (r := Rule.blockOpen) rfl rfl
  rwa [passed_of_passes (Cursor.eat?_passes h)] at hbody

section Head

variable {K f : Pattern Rule} {accepts : Keyword → Bool}

/-- A name and an opening brace, where one of them is missing or what is behind them refuses. -/
theorem nameOpen_refuses (h : ∀ n c₁ c₂, identifier c = some (n, c₁) →
      (skip c₁).eat? ['{'] = some c₂ → Matches datamodel .free f (skip c₂) none) :
    Matches datamodel .free (.seq (.rule .identifier) (.seq (.rule .blockOpen) f)) c none := by
  have hname := identifier_follows (m := .free) (by decide) c
  cases hn : identifier c with
  | none =>
      rw [hn] at hname
      exact .seqLeft hname
  | some r =>
      obtain ⟨n, c₁⟩ := r
      rw [hn] at hname
      obtain ⟨_, hname, rfl⟩ := hname
      refine .seqRight hname (between_free c₁) ?_
      cases hbrace : (skip c₁).eat? ['{'] with
      | none => exact .seqLeft (blockOpen_refuses hbrace)
      | some c₂ => exact .seqRight (blockOpen_matches hbrace) (between_free c₂) (h n c₁ c₂ hn hbrace)

/-- A name and an opening brace before what is behind them. -/
theorem nameOpen_matches {n : Identifier} {ps : List Rule.Tree} (hn : identifier c = some (n, c₁))
    (hbrace : (skip c₁).eat? ['{'] = some c₂)
    (h : Matches datamodel .free f (skip c₂) (some (ps, c'))) :
    Matches datamodel .free (.seq (.rule .identifier) (.seq (.rule .blockOpen) f)) c
      (some (⟨.identifier, n.position, n.name.toList, []⟩ ::
        ⟨.blockOpen, (skip c₁).position, ['{'], []⟩ :: ps, c')) := by
  have hname := identifier_follows (m := .free) (by decide) c
  rw [hn] at hname
  obtain ⟨_, hname, rfl⟩ := hname
  exact .seq hname (between_free c₁) (.seq (blockOpen_matches hbrace) (between_free c₂) h)

/-- Where no block of some kinds opens, their rule refuses. -/
theorem block_refuses (contents : Rule)
    (hK : Follows datamodel .free K (IsKeyword c.position) c (keywordAt accepts c))
    (h : ∀ k n c₁, blockHead c = some (k, n, c₁) → accepts k = false) :
    Matches datamodel .free (Rule.block K contents) c none := by
  cases hk : keywordAt accepts c with
  | none =>
      rw [hk] at hK
      exact .seqLeft hK
  | some r =>
      obtain ⟨k, c₁⟩ := r
      rw [hk] at hK
      obtain ⟨ps, hps, -⟩ := hK
      obtain ⟨w, hw, hword, haccepts⟩ := keywordAt_eq_some_iff.mp hk
      refine .seqRight hps (between_free c₁) (nameOpen_refuses fun n c₂ c₃ hn hbrace => ?_)
      have hhead := h k n c₃ (blockHead_steps.mpr ⟨w, c₁, c₂, hw, hword, hn, hbrace⟩)
      rw [hhead] at haccepts
      cases haccepts

/-- The pair at the end of a block: its closing brace, or what stands for one that is missing. -/
inductive CloseTree : Cursor → Rule.Tree → Cursor → Prop where
  | close {c c' : Cursor} {text : List Char} (h : c.eat? ['}'] = some c') :
      CloseTree c ⟨.blockClose, c.position, text, []⟩ c'
  | missing {c : Cursor} {text : List Char} (h : c.rest = []) :
      CloseTree c ⟨.missingBlockClose, c.position, text, []⟩ c

theorem blockClose_refuses (h : Stops (· == '}') c.rest) :
    Matches datamodel .free (.rule .blockClose) c none :=
  .ruleNone (.terminalNone (Cursor.eat?_char_eq_none h))

theorem blockClose_matches (h : c.eat? ['}'] = some c') :
    ∃ text, Matches datamodel .free (.rule .blockClose) c
      (some ([⟨.blockClose, c.position, text, []⟩], c')) :=
  ⟨_, (one_matches (m := .free) h).leaves (m := .free) (r := Rule.blockClose) rfl rfl⟩

theorem blockEnd_matches (h : c.rest = [] ∨ ∃ rest, c.rest = '}' :: rest) :
    ∃ t c', Matches datamodel .free (.rule .blockEnd) c (some ([t], c')) ∧ CloseTree c t c' := by
  rcases h with h | ⟨rest, h⟩
  · have hnone := blockClose_refuses (c := c) (by rw [h]; exact stops_nil)
    have hahead : Matches datamodel .free (.ahead (.rule .endOfInput)) c (some ([], c)) :=
      (recognizes_ahead (r := .endOfInput) rfl).of_some (by simp [Terminal.read, h])
    have hmissing := hahead.leaves (m := .free) (r := Rule.missingBlockClose) rfl rfl
    exact ⟨_, c, .rule (r := Rule.blockEnd) (.second hnone hmissing), .missing h⟩
  · have heat := Cursor.eat?_char h
    obtain ⟨text, hclose⟩ := blockClose_matches heat
    exact ⟨_, _, .rule (r := Rule.blockEnd) (.first hclose), .close heat⟩

/-- The parts of a block: its keyword, its name, its opening brace, its contents and its end. -/
inductive BlockParts (read : Reader (Checked α)) (walk : Rule.Tree → Walk.Walked α)
    (contents : Rule) (k : Keyword) (n : Identifier) : Cursor → Cursor → List Rule.Tree → Cursor →
    Prop where
  | mk {c c₁ c₂ c₃ c' : Cursor} {word text : List Char} {ts : List Rule.Tree} {close : Rule.Tree}
      (hopen : c₁.eat? ['{'] = some c₂) (hts : LineTrees read walk c₂ ts c₃)
      (hclose : CloseTree c₃ close c') : BlockParts read walk contents k n c c₂
        [⟨.keyword k, c.position, word, []⟩, ⟨.identifier, n.position, n.name.toList, []⟩,
          ⟨.blockOpen, c₁.position, ['{'], []⟩, ⟨contents, (skip c₂).position, text, ts⟩, close] c'

/-- Where a block of some kinds opens, their rule leaves its parts. -/
theorem block_matches {read : Reader (Checked α)} {walk : Rule.Tree → Walk.Walked α} {fault : Fault}
    {k : Keyword} {n : Identifier} (contents : Rule)
    (hK : Follows datamodel .free K (IsKeyword c.position) c (keywordAt accepts c))
    (hhead : blockHead c = some (k, n, c₁)) (haccepts : accepts k = true)
    (hline : LineRule read e walk fault) (hcontents : datamodel.body contents = Rule.contents e)
    (hkind : datamodel.kind contents = .normal) :
    ∃ ps c', Matches datamodel .free (Rule.block K contents) c (some (ps, c')) ∧
      BlockParts read walk contents k n c c₁ ps c' := by
  obtain ⟨w, d₁, d₂, hw, hword, hn, hbrace⟩ := blockHead_steps.mp hhead
  have hk : keywordAt accepts c = some (k, d₁) :=
    keywordAt_eq_some_iff.mpr ⟨w, hw, hword, haccepts⟩
  rw [hk] at hK
  obtain ⟨_, hps, text, rfl⟩ := hK
  obtain ⟨ts, d₃, hts, htrees⟩ := contents_matches hline c₁
  rw [← hcontents] at hts
  have hpair := hts.leaves (m := .free) (r := contents) (by rw [hkind]; rfl) (by rw [hkind]; rfl)
  obtain ⟨t, c', hend, hclose⟩ := blockEnd_matches htrees.ends
  exact ⟨_, c', .seq hps (between_free d₁)
    (nameOpen_matches hn hbrace (.seq hpair (between_free d₃) hend)), .mk hbrace htrees hclose⟩

end Head

/-! ### What blocks say -/

section Parts

variable {read : Reader (Checked α)} {walk : Rule.Tree → Walk.Walked α} {fault : Fault}
  {S : Position → α → List Char → Prop} {contents : Rule} {k : Keyword} {n : Identifier}
  {ps : List Rule.Tree} {accepts : Keyword → Bool}
  {line : Option Keyword → Rule.Tree → Walk.Walked α}

/-- How the parts of a block of some kinds are walked. -/
structure PartsRule (accepts : Keyword → Bool) (contents : Rule)
    (line : Option Keyword → Rule.Tree → Walk.Walked α) (walk : Rule.Tree → Walk.Walked α)
    (k : Keyword) : Prop where
  accepted  : accepts k = true
  walked    : line (some k) = walk
  contained : ∀ b p text parts, Walk.blockPart accepts contents line b ⟨contents, p, text, parts⟩ =
    Walk.lines (line b.keyword) parts >>= fun ls => .ok { b with lines := b.lines ++ ls }

theorem PartsRule.head (h : PartsRule accepts contents line walk k) (p q : Position)
    (word : List Char) (ts : List Rule.Tree) :
    List.foldlM (Walk.blockPart accepts contents line) ⟨none, none, []⟩
      (⟨.keyword k, p, word, []⟩ :: ⟨.identifier, n.position, n.name.toList, []⟩ ::
        ⟨.blockOpen, q, ['{'], []⟩ :: ts) =
      List.foldlM (Walk.blockPart accepts contents line) ⟨some k, some n, []⟩ ts := by
  have hkeyword : Walk.blockPart accepts contents line ⟨none, none, []⟩
      ⟨.keyword k, p, word, []⟩ = .ok ⟨some k, none, []⟩ := if_pos h.accepted
  have hname : Walk.blockPart accepts contents line ⟨some k, none, []⟩
      ⟨.identifier, n.position, n.name.toList, []⟩ = .ok ⟨some k, some n, []⟩ := by
    rw [Walk.blockPart, String.ofList_toList]
  rw [List.foldlM_cons, hkeyword]
  show List.foldlM _ _ _ = _
  rw [List.foldlM_cons, hname]
  rfl

theorem PartsRule.lines (h : PartsRule accepts contents line walk k) (p : Position)
    (text : List Char) (parts ts : List Rule.Tree) :
    List.foldlM (Walk.blockPart accepts contents line) ⟨some k, some n, []⟩
      (⟨contents, p, text, parts⟩ :: ts) = Walk.lines walk parts >>= fun ls =>
        List.foldlM (Walk.blockPart accepts contents line) ⟨some k, some n, ls⟩ ts := by
  rw [List.foldlM_cons, h.contained, h.walked]
  cases Walk.lines walk parts <;> rfl

theorem lines_eq_bind (read : Reader (Checked α)) (fault : Fault) (c : Cursor) :
    Grammar.lines read fault c = linesFrom read fault c >>= fun r =>
      match r.2.eat? ['}'] with
      | some c => .ok (r.1, c)
      | none   => .error ⟨r.2.position, .missingBrace⟩ := rfl

/-- **The parts of a block are walked to what the reader reads behind its opening brace.** -/
theorem BlockParts.walk_eq (h : BlockParts read walk contents k n c c₁ ps c')
    (hread : LineReader read S) (hline : LineRule read e walk fault)
    (hparts : PartsRule accepts contents line walk k) :
    ps.foldlM (Walk.blockPart accepts contents line) ⟨none, none, []⟩ =
        Walk.ofChecked ((lines read fault c₁).map fun r => ⟨some k, some n, r.1⟩) ∧
      ∀ as d, Grammar.lines read fault c₁ = .ok (as, d) → d = c' := by
  obtain ⟨hopen, hts, hclose⟩ := h
  obtain ⟨hlines, hend⟩ := hts.walk_eq hread hline
  rw [hparts.head, hparts.lines, hlines, lines_eq_bind]
  cases hfrom : linesFrom read fault c₁ with
  | error e => exact ⟨rfl, fun _ _ h => by cases h⟩
  | ok r =>
      obtain ⟨as, d⟩ := r
      obtain rfl := hend as d hfrom
      cases hclose with
      | close h =>
          simp only [Except.map, bind, Except.bind, h]
          refine ⟨rfl, fun as' d' h' => ?_⟩
          cases h'
          rfl
      | missing h =>
          have hnone := Cursor.eat?_char_eq_none (x := '}') (by rw [h]; exact stops_nil)
          simp only [Except.map, bind, Except.bind, hnone]
          exact ⟨rfl, fun _ _ h => by cases h⟩

theorem BlockParts.passes (h : BlockParts read walk contents k n c c₁ ps c') :
    ∃ s, c₁.Passes s c' := by
  obtain ⟨-, hts, hclose⟩ := h
  obtain ⟨s, hs⟩ := hts.passes
  cases hclose with
  | close h => exact ⟨_, hs.trans (Cursor.eat?_passes h)⟩
  | missing => exact ⟨s, hs⟩

end Parts

/-- How the blocks of a keyword are read, which pairs they leave, and how those are walked. -/
structure BlockRule (read : Reader (Checked α)) (S : Position → α → List Char → Prop)
    (e : Pattern Rule) (walk : Rule.Tree → Walk.Walked α) (fault : Fault)
    (declaration contents : Rule) (accepts : Keyword → Bool)
    (line : Option Keyword → Rule.Tree → Walk.Walked α) (k : Keyword)
    (make : Identifier → List α → Block) : Prop where
  lineReader : LineReader read S
  lineRule   : LineRule read e walk fault
  fails      : Yields read Checked.FailsAtEscape
  partsRule  : PartsRule accepts contents line walk k
  body_eq    : ∀ n c, body k n c = lines read fault c >>= fun r => .ok (make n r.1, r.2)
  keyword    : ∀ n ls, (make n ls).keyword = k
  name       : ∀ n ls, (make n ls).name = n
  spelled    : ∀ n {p ls u}, SpelledLines S p ls u → (make n ls).SpelledBody p u
  walked     : ∀ {p text parts n ls},
    parts.foldlM (Walk.blockPart accepts contents line) ⟨none, none, []⟩ =
      .ok ⟨some k, some n, ls⟩ → Walk.top ⟨declaration, p, text, parts⟩ = .ok (some (make n ls))
  stopped    : ∀ {p text parts stop},
    parts.foldlM (Walk.blockPart accepts contents line) ⟨none, none, []⟩ = .error stop →
      Walk.top ⟨declaration, p, text, parts⟩ = .error stop

theorem model_blockRule (kind : ModelKind) : BlockRule (line field) (Line.Spelled Field.Spelled)
    (.choice (.rule .fieldDeclaration) (.rule .blockAttribute)) Walk.modelLine .notField
    .modelDeclaration .modelContents Walk.Keyword.isModel (fun _ => Walk.modelLine) (.model kind)
    fun n ls => .model ⟨kind, n, Line.items ls, Line.attributes ls⟩ where
  lineReader := field_lineReader
  lineRule   := field_lineRule
  fails      := line_fails field_fails
  partsRule  := ⟨rfl, rfl, fun _ _ _ _ => rfl⟩
  body_eq    := fun _ _ => rfl
  keyword    := fun _ _ => rfl
  name       := fun _ _ => rfl
  spelled    := fun _ _ _ _ => .model
  walked     := fun h => by
    rw [Walk.top, Walk.model, h]
    rfl
  stopped    := fun h => by
    rw [Walk.top, Walk.model, h]
    rfl

theorem enum_blockRule : BlockRule (line enumValue) (Line.Spelled EnumValue.Spelled)
    (.choice (.rule .enumValueDeclaration) (.rule .blockAttribute)) Walk.enumLine .notEnumValue
    .enumDeclaration .enumContents (· == .enum) (fun _ => Walk.enumLine) .enum
    fun n ls => .enum ⟨n, Line.items ls, Line.attributes ls⟩ where
  lineReader := enumValue_lineReader
  lineRule   := enumValue_lineRule
  fails      := line_fails enumValue_fails
  partsRule  := ⟨rfl, rfl, fun _ _ _ _ => rfl⟩
  body_eq    := fun _ _ => rfl
  keyword    := fun _ _ => rfl
  name       := fun _ _ => rfl
  spelled    := fun _ _ _ _ => .enum
  walked     := fun h => by
    rw [Walk.top, Walk.enum, h]
    rfl
  stopped    := fun h => by
    rw [Walk.top, Walk.enum, h]
    rfl

theorem config_blockRule (kind : ConfigKind) : BlockRule setting Setting.Spelled (.rule .keyValue)
    (Walk.configLine (some (.config kind))) (.notSetting kind) .configBlock .configContents
    Walk.Keyword.isConfig Walk.configLine (.config kind) fun n ss => .config ⟨kind, n, ss⟩ where
  lineReader := setting_lineReader
  lineRule   := setting_lineRule kind
  fails      := setting_fails
  partsRule  := ⟨rfl, rfl, fun _ _ _ _ => rfl⟩
  body_eq    := fun _ _ => rfl
  keyword    := fun _ _ => rfl
  name       := fun _ _ => rfl
  spelled    := fun _ _ _ _ => .config
  walked     := fun h => by
    rw [Walk.top, Walk.config, h]
    rfl
  stopped    := fun h => by
    rw [Walk.top, Walk.config, h]
    rfl

/-- A block, its pair, and the place where it ends. -/
inductive BlockTree : Cursor → Rule.Tree → Cursor → Prop where
  | mk {α : Type} {read : Reader (Checked α)} {S : Position → α → List Char → Prop}
      {e : Pattern Rule} {walk : Rule.Tree → Walk.Walked α} {fault : Fault}
      {declaration contents : Rule} {accepts : Keyword → Bool}
      {line : Option Keyword → Rule.Tree → Walk.Walked α} {k : Keyword}
      {make : Identifier → List α → Block} {n : Identifier} {c c₁ c' : Cursor}
      {text : List Char} {parts : List Rule.Tree}
      (rule : BlockRule read S e walk fault declaration contents accepts line k make)
      (hhead : blockHead c = some (k, n, c₁))
      (h : BlockParts read walk contents k n c c₁ parts c') :
      BlockTree c ⟨declaration, c.position, text, parts⟩ c'

theorem BlockTree.walk_eq {t : Rule.Tree} (h : BlockTree c t c') :
    ∃ k n c₁, blockHead c = some (k, n, c₁) ∧
      Walk.top t = Walk.ofChecked ((body k n c₁).map fun r => some r.1) ∧
      ∀ b d, body k n c₁ = .ok (b, d) → d = c' := by
  obtain ⟨rule, hhead, h⟩ := h
  obtain ⟨hwalk, hend⟩ := h.walk_eq rule.lineReader rule.lineRule rule.partsRule
  refine ⟨_, _, _, hhead, ?_, fun b d hbody => ?_⟩
  · rw [rule.body_eq]
    generalize lines _ _ _ = ls at hwalk
    cases ls with
    | error e => exact rule.stopped hwalk
    | ok r => exact rule.walked hwalk
  · rw [rule.body_eq] at hbody
    obtain ⟨r, hls, h⟩ := bind_eq_ok_iff.mp hbody
    cases h
    exact hend _ _ hls

theorem blockHead_passes {k : Keyword} {n : Identifier} (h : blockHead c = some (k, n, c')) :
    ∃ s, s ≠ [] ∧ c.Passes s c' := by
  obtain ⟨s, s', -, -, -, -, hp⟩ := blockHead_eq_some_iff.mp h
  refine ⟨_, fun hnil => ?_, hp⟩
  simp [headText] at hnil

theorem BlockTree.position {t : Rule.Tree} (h : BlockTree c t c') : t.position = c.position := by
  cases h
  rfl

theorem BlockTree.passes {t : Rule.Tree} (h : BlockTree c t c') : ∃ s, s ≠ [] ∧ c.Passes s c' := by
  obtain ⟨-, hhead, h⟩ := h
  obtain ⟨s, hne, hs⟩ := blockHead_passes hhead
  obtain ⟨t, ht⟩ := h.passes
  exact ⟨s ++ t, fun hnil => hne (List.append_eq_nil_iff.mp hnil).1, hs.trans ht⟩

/-! ### Where a block opens, and where none does -/

theorem keywords_accept {K : Pattern Rule} {accepts : Keyword → Bool} (ks : List Keyword)
    (k : Keyword) (hK : K = Rule.oneOf (.rule (.keyword k)) (ks.map fun k => .rule (.keyword k)))
    (haccepts : ∀ k', accepts k' = (k :: ks).contains k') (c : Cursor) :
    Follows datamodel .free K (IsKeyword c.position) c (keywordAt accepts c) := by
  rw [hK, show accepts = (k :: ks).contains from funext haccepts]
  exact keywords_follow ks k c

theorem modelKeyword_follows (c : Cursor) : Follows datamodel .free
    (Rule.oneOf (.rule (.keyword (.model .model)))
      [.rule (.keyword (.model .view)), .rule (.keyword (.model .type))])
    (IsKeyword c.position) c (keywordAt Walk.Keyword.isModel c) :=
  keywords_accept [.model .view, .model .type] (.model .model) rfl
    (fun k => by rcases k with ⟨_ | _ | _⟩ | _ | ⟨_ | _⟩ <;> rfl) c

theorem enumKeyword_follows (c : Cursor) : Follows datamodel .free (.rule (.keyword .enum))
    (IsKeyword c.position) c (keywordAt (· == .enum) c) := keyword_follows .enum c

theorem configKeyword_follows (c : Cursor) : Follows datamodel .free
    (.choice (.rule (.keyword (.config .datasource))) (.rule (.keyword (.config .generator))))
    (IsKeyword c.position) c (keywordAt Walk.Keyword.isConfig c) :=
  keywords_accept [.config .generator] (.config .datasource) rfl
    (fun k => by rcases k with ⟨_ | _ | _⟩ | _ | ⟨_ | _⟩ <;> rfl) c

/-- The three kinds of block, and what stands where none of them opens. -/
def Rule.blocks (e : Pattern Rule) : Pattern Rule :=
  Rule.oneOf (.rule .modelDeclaration) [.rule .enumDeclaration, .rule .configBlock, e]

theorem blocks_matches {k : Keyword} {n : Identifier} (hhead : blockHead c = some (k, n, c₁)) :
    ∃ t c', Matches datamodel .free (Rule.blocks e) c (some ([t], c')) ∧ BlockTree c t c' := by
  have hother : ∀ {accepts : Keyword → Bool}, accepts k = false →
      ∀ k' n' d, blockHead c = some (k', n', d) → accepts k' = false := by
    intro accepts haccepts k' n' d h
    rw [hhead] at h
    cases h
    exact haccepts
  cases k with
  | model kind =>
      obtain ⟨ps, c', hps, hparts⟩ := block_matches .modelContents
        (modelKeyword_follows c) hhead rfl field_lineRule rfl rfl
      have htree := hps.leaves (m := .free) (r := Rule.modelDeclaration) rfl rfl
      exact ⟨_, c', .first htree, .mk (model_blockRule kind) hhead hparts⟩
  | enum =>
      obtain ⟨ps, c', hps, hparts⟩ := block_matches .enumContents
        (enumKeyword_follows c) hhead rfl enumValue_lineRule rfl rfl
      have htree := hps.leaves (m := .free) (r := Rule.enumDeclaration) rfl rfl
      have hmodel := block_refuses .modelContents (modelKeyword_follows c)
        (hother rfl)
      exact ⟨_, c', .second (.ruleNone hmodel) (.first htree), .mk enum_blockRule hhead hparts⟩
  | config kind =>
      obtain ⟨ps, c', hps, hparts⟩ := block_matches .configContents
        (configKeyword_follows c) hhead rfl (setting_lineRule kind) rfl rfl
      have htree := hps.leaves (m := .free) (r := Rule.configBlock) rfl rfl
      have hmodel := block_refuses .modelContents (modelKeyword_follows c)
        (hother rfl)
      have henum := block_refuses .enumContents (enumKeyword_follows c) (hother rfl)
      exact ⟨_, c', .second (.ruleNone hmodel) (.second (.ruleNone henum) (.first htree)),
        .mk (config_blockRule kind) hhead hparts⟩

theorem blocks_refuse {x : Option (List Rule.Tree × Cursor)} (hhead : blockHead c = none)
    (h : Matches datamodel .free e c x) : Matches datamodel .free (Rule.blocks e) c x := by
  have hnone : ∀ {accepts : Keyword → Bool} k n c₁, blockHead c = some (k, n, c₁) →
      accepts k = false := fun k n c₁ h => by
    rw [hhead] at h
    cases h
  exact .second (.ruleNone (block_refuses .modelContents (modelKeyword_follows c) hnone))
    (.second (.ruleNone (block_refuses .enumContents (enumKeyword_follows c) hnone))
      (.second (.ruleNone (block_refuses .configContents (configKeyword_follows c) hnone)) h))

end SchemaEnums.Schema
