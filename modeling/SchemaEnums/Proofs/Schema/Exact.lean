import SchemaEnums.Proofs.Schema.ExactLines

/-!
# Schema — Exact

A schema is read off the texts that spell it and no others (`Document.parse_eq_ok_iff`).

As with lines, `blocksFrom` is the loop over blocks without its bound.  Blocks that stand before a
line break are read whatever follows (`blocksFrom_append`): nothing in front of a line break looks
beyond it.
-/

namespace SchemaEnums.Schema
open Text Text.Reader Grammar Literal

variable {c c₁ c' : Cursor}

/-! ### One block -/

theorem isName_word (k : Keyword) : IsName k.word.toList := by
  cases k with
  | model kind => cases kind <;> decide
  | enum => decide
  | config kind => cases kind <;> decide

theorem ofWord?_word (k : Keyword) : Keyword.ofWord? k.word = some k := by
  cases k with
  | model kind => cases kind <;> rfl
  | enum => rfl
  | config kind => cases kind <;> rfl

theorem opening_eq_some_iff {w n : Identifier} : opening c = some ((w, n), c') ↔
    ∃ s s', w.At c.position ∧ IsSpaces s ∧ s ≠ [] ∧
      n.At (c.position.afterAll (w.name.toList ++ s)) ∧ IsSpaces s' ∧
      c.Passes (headText w.name s n.name s') c' := by
  constructor
  · intro h
    simp only [opening, Option.bind_eq_bind, Option.bind_eq_some_iff, Option.some.injEq,
      Prod.mk.injEq] at h
    obtain ⟨⟨i, c₁⟩, hw, ⟨j, c₂⟩, hn, c₃, hbrace, ⟨rfl, rfl⟩, rfl⟩ := h
    obtain ⟨hw, hp₁, hstops⟩ := identifier_eq_some_iff.mp hw
    obtain ⟨hn, hp₃, -⟩ := identifier_eq_some_iff.mp hn
    have hp₅ := Cursor.eat?_passes hbrace
    obtain ⟨s, hs, hne, hp₂⟩ := spaces_spell_before_name hstops hp₃ hn.name.opens
    obtain ⟨s', hs', hp₄⟩ := skip_spells_before hp₅ ⟨'{', [], rfl, rfl⟩
    rw [(hp₁.trans hp₂).position] at hn
    exact ⟨s, s', hw, hs, hne, hn, hs', hp₁.trans (hp₂.trans (hp₃.trans (hp₄.trans hp₅)))⟩
  · rintro ⟨s, s', hw, hs, hne, hn, hs', hp⟩
    obtain ⟨c₁, hp₁, hp⟩ := hp.split
    obtain ⟨c₂, hp₂, hp⟩ := hp.split
    obtain ⟨c₃, hp₃, hp⟩ := hp.split
    obtain ⟨c₄, hp₄, hp₅⟩ := hp.split
    obtain ⟨h₁, h₂⟩ := identifier_spaces_reads hw hs hne hp₁ hp₂ hp₃ hn.name.opens
    have h₃ := identifier_reads (c := c₂) (by rwa [(hp₁.trans hp₂).position]) hp₃ (by
      rw [hp₄.rest, hp₅.rest]
      exact hs'.stops (fun _ => extendsPath_of_isSpace) (.cons rfl))
    have h₄ := skip_spaces hs' hp₄ (by rw [hp₅.rest]; exact .cons rfl)
    simp only [opening, h₁, h₂, h₃, h₄, hp₅.eat?, Option.bind_eq_bind, Option.bind_some]

theorem ofWord?_eq_some_iff {w : String} {k : Keyword} :
    Keyword.ofWord? w = some k ↔ w = k.word := by
  constructor
  · intro h
    simp only [Keyword.ofWord?] at h
    split at h <;> cases h <;> rfl
  · rintro rfl
    exact ofWord?_word k

/-- The keyword and the name of a block, and the place behind its opening brace. -/
def blockHead (c : Cursor) : Option (Keyword × Identifier × Cursor) :=
  (opening c).bind fun ((word, name), c') => (Keyword.ofWord? word.name).map (·, name, c')

theorem blockHead_eq_some_iff {k : Keyword} {n : Identifier} :
    blockHead c = some (k, n, c') ↔
      ∃ s s', IsSpaces s ∧ s ≠ [] ∧ n.At (c.position.afterAll (k.word.toList ++ s)) ∧
        IsSpaces s' ∧ c.Passes (headText k.word s n.name s') c' := by
  rw [blockHead, Option.bind_eq_some_iff]
  constructor
  · rintro ⟨⟨⟨w, i⟩, c₁⟩, hopening, hword⟩
    obtain ⟨_, hk, h⟩ := Option.map_eq_some_iff.mp hword
    cases h
    obtain ⟨s, s', -, hs, hne, hn, hs', hp⟩ := opening_eq_some_iff.mp hopening
    rw [ofWord?_eq_some_iff.mp hk] at hn hp
    exact ⟨s, s', hs, hne, hn, hs', hp⟩
  · rintro ⟨s, s', hs, hne, hn, hs', hp⟩
    refine ⟨((⟨k.word, c.position⟩, n), c'), opening_eq_some_iff.mpr
      ⟨s, s', ⟨isName_word k, rfl⟩, hs, hne, hn, hs', hp⟩, ?_⟩
    simp only [ofWord?_word, Option.map_some]

theorem body_eq_ok_iff {k : Keyword} {n : Identifier} {b : Block} : body k n c = .ok (b, c') ↔
    b.keyword = k ∧ b.name = n ∧ ∃ u, b.SpelledBody c.position u ∧ c.Passes (u ++ ['}']) c' := by
  constructor
  · intro h
    cases k with
    | model kind =>
        obtain ⟨⟨ls, _⟩, hls, h⟩ := bind_eq_ok_iff.mp h
        cases h
        obtain ⟨u, hu, hp⟩ := field_lineReader.lines_eq_ok_iff.mp hls
        exact ⟨rfl, rfl, u, .model hu, hp⟩
    | enum =>
        obtain ⟨⟨ls, _⟩, hls, h⟩ := bind_eq_ok_iff.mp h
        cases h
        obtain ⟨u, hu, hp⟩ := enumValue_lineReader.lines_eq_ok_iff.mp hls
        exact ⟨rfl, rfl, u, .enum hu, hp⟩
    | config kind =>
        obtain ⟨⟨ss, _⟩, hss, h⟩ := bind_eq_ok_iff.mp h
        cases h
        obtain ⟨u, hu, hp⟩ := setting_lineReader.lines_eq_ok_iff.mp hss
        exact ⟨rfl, rfl, u, .config hu, hp⟩
  · rintro ⟨rfl, rfl, u, hu, hp⟩
    cases hu with
    | model hu =>
        exact bind_eq_ok_iff.mpr ⟨_, field_lineReader.lines_eq_ok_iff.mpr ⟨u, hu, hp⟩, rfl⟩
    | enum hu =>
        exact bind_eq_ok_iff.mpr ⟨_, enumValue_lineReader.lines_eq_ok_iff.mpr ⟨u, hu, hp⟩, rfl⟩
    | config hu =>
        exact bind_eq_ok_iff.mpr ⟨_, setting_lineReader.lines_eq_ok_iff.mpr ⟨u, hu, hp⟩, rfl⟩

/-- **A block is read off the texts that spell it.** -/
theorem block_eq_ok_iff {b : Block} :
    (∃ k n c₁, blockHead c = some (k, n, c₁) ∧ body k n c₁ = .ok (b, c')) ↔
      ∃ t, b.Spelled c.position t ∧ c.Passes t c' := by
  constructor
  · rintro ⟨k, n, c₁, hhead, hbody⟩
    obtain ⟨s, s', hs, hne, hn, hs', hp₁⟩ := blockHead_eq_some_iff.mp hhead
    obtain ⟨rfl, rfl, u, hu, hp₂⟩ := body_eq_ok_iff.mp hbody
    rw [hp₁.position] at hu
    exact ⟨_, .mk hs hne hn hs' hu, hp₁.trans hp₂⟩
  · rintro ⟨t, ⟨hs, hne, hn, hs', hu⟩, hp⟩
    obtain ⟨c₁, hp₁, hp₂⟩ := hp.split
    rw [← hp₁.position] at hu
    exact ⟨_, _, c₁, blockHead_eq_some_iff.mpr ⟨_, _, hs, hne, hn, hs', hp₁⟩,
      body_eq_ok_iff.mpr ⟨rfl, rfl, _, hu, hp₂⟩⟩

theorem Block.Spelled.opens {p : Position} {b : Block} {t : List Char} (h : b.Spelled p t) :
    ∃ x u, t = x :: u ∧ isNameStart x = true := by
  cases h with
  | mk hs hne hn hs' hu =>
      rw [headText, List.append_assoc]
      exact (isName_word b.keyword).opens_append _

/-! ### All blocks -/

/-- The blocks from a place on. -/
def blocksFrom (c : Cursor) : Checked (List Block) := blocksWithin c.rest c

/-- What the blocks at a place are, if those behind it are given by `next`. -/
def blocksStep (next : Cursor → Checked (List Block)) (c : Cursor) : Checked (List Block) :=
  match (skip c).rest, lineBreak (skip c) with
  | [], _            => .ok []
  | _, some ((), c') => next c'
  | _, none          =>
    match blockHead (skip c) with
    | some (keyword, name, c') => do
      let (block, c') ← body keyword name c'
      let blocks ← next c'
      .ok (block :: blocks)
    | none => .error ⟨(skip c).position, openingFault (skip c)⟩

theorem blocksStep_nil {next : Cursor → Checked (List Block)} (hc : (skip c).rest = []) :
    blocksStep next c = .ok [] := by
  rw [blocksStep, hc]

theorem blocksStep_lineBreak {next : Cursor → Checked (List Block)} {x : Char} {rest : List Char}
    (hc : (skip c).rest = x :: rest) (h : lineBreak (skip c) = some ((), c')) :
    blocksStep next c = next c' := by
  rw [blocksStep, hc, h]

theorem blocksStep_block {next : Cursor → Checked (List Block)} {x : Char} {rest : List Char}
    (hc : (skip c).rest = x :: rest) (h : lineBreak (skip c) = none) :
    blocksStep next c = match blockHead (skip c) with
      | some (keyword, name, c') =>
        body keyword name c' >>= fun r => next r.2 >>= fun bs => .ok (r.1 :: bs)
      | none => .error ⟨(skip c).position, openingFault (skip c)⟩ := by
  rw [blocksStep, hc, h]

/-- A step looks at what follows behind a shorter text only. -/
theorem blocksStep_congr {next next' : Cursor → Checked (List Block)}
    (hnext : ∀ d : Cursor, d.rest.length < c.rest.length → next d = next' d) :
    blocksStep next c = blocksStep next' c := by
  have hlength := skip_length c
  cases hc : (skip c).rest with
  | nil => rw [blocksStep_nil hc, blocksStep_nil hc]
  | cons x rest =>
      cases hbreak : lineBreak (skip c) with
      | some r =>
          have hlt := lineBreak_length hbreak
          rw [blocksStep_lineBreak hc hbreak, blocksStep_lineBreak hc hbreak, hnext _ (by omega)]
      | none =>
          rw [blocksStep_block hc hbreak, blocksStep_block hc hbreak]
          cases hhead : blockHead (skip c) with
          | none => rfl
          | some r =>
              obtain ⟨k, n, c₁⟩ := r
              cases hbody : body k n c₁ with
              | error e =>
                  simp only [hbody]
                  rfl
              | ok r =>
                  obtain ⟨t, ht, hp⟩ := block_eq_ok_iff.mp ⟨k, n, c₁, hhead, hbody⟩
                  obtain ⟨y, u, rfl, -⟩ := ht.opens
                  have hlt := hp.length
                  rw [List.length_cons] at hlt
                  simp only [hbody]
                  show (next r.2 >>= _) = (next' r.2 >>= _)
                  rw [hnext r.2 (by omega)]

theorem blocks_loops : Loops blocksWithin blocksStep where
  cons  := fun _ _ _ => rfl
  nil   := fun _ {_} hc => blocksStep_nil (by rw [skip_eq_self (by rw [hc]; exact stops_nil), hc])
  congr := blocksStep_congr

/-- **What the blocks from a place on are.** -/
theorem blocksFrom_eq (c : Cursor) : blocksFrom c = blocksStep blocksFrom c :=
  blocks_loops.eq_step c

theorem blocksFrom_skip (c : Cursor) : blocksFrom (skip c) = blocksFrom c := by
  rw [blocksFrom_eq, blocksFrom_eq c, blocksStep, blocksStep, skip_skip]

theorem blocksFrom_lineBreak {x : Char} (hx : isLineBreak x = true) (hp : c.Passes [x] c₁) :
    blocksFrom c = blocksFrom c₁ := by
  refine eq_behind_lineBreak (fun {d d' y rest} hy hd hd' => ?_) hx hp
  have hstay : skip d = d := skip_eq_self (by rw [hd]; exact .cons (opensSkip_of_isLineBreak hy))
  rw [blocksFrom_eq, blocksStep_lineBreak (by rw [hstay, hd]) (by rw [hstay, hd'])]

theorem blocksFrom_block {b : Block} {t : List Char} (hb : b.Spelled c.position t)
    (hp : c.Passes t c') : blocksFrom c = blocksFrom c' >>= fun bs => .ok (b :: bs) := by
  obtain ⟨x, u, rfl, hx⟩ := hb.opens
  have hc : c.rest = x :: (u ++ c'.rest) := hp.rest
  have hstay : skip c = c := skip_eq_self (by rw [hc]; exact .cons (opensSkip_of_isNameStart hx))
  have hbreak : lineBreak c = none :=
    lineBreak_refuses (.cons (isLineBreak_of_isNameStart hx)) c hc
  obtain ⟨k, n, c₁, hhead, hbody⟩ := block_eq_ok_iff.mpr ⟨_, hb, hp⟩
  rw [blocksFrom_eq, blocksStep_block (by rw [hstay, hc]) (by rw [hstay, hbreak]), hstay, hhead]
  simp only [hbody]
  rfl

/-- **Blocks before a line break or the end are read whatever follows**, and what follows is read
from there on. -/
theorem blocksFrom_append {p : Position} {bs : List Block} {t : List Char}
    (h : SpelledBlocks p bs t) (hposition : c.position = p) (hp : c.Passes t c')
    (hc' : AtBreak c'.rest) : blocksFrom c = (blocksFrom c').map (bs ++ ·) := by
  induction h generalizing c with
  | nil hs =>
      rw [← blocksFrom_skip, skip_blank hs hp hc']
      cases blocksFrom c' <;> rfl
  | line hs hx _ ih =>
      obtain ⟨c₁, hp₁, hp⟩ := hp.split
      obtain ⟨c₂, hp₂, hp₃⟩ := hp.split_cons
      rw [← blocksFrom_skip, skip_blank hs hp₁ (by rw [hp₂.rest]; exact atBreak_cons hx _),
        blocksFrom_lineBreak hx hp₂]
      exact ih (by rw [(hp₁.trans hp₂).position, hposition]) hp₃
  | @block p b bs s t u hs hb _ ih =>
      obtain ⟨c₁, hp₁, hp⟩ := hp.split
      obtain ⟨c₂, hp₂, hp₃⟩ := hp.split
      obtain ⟨x, w, hx, hstart⟩ := hb.opens
      rw [← blocksFrom_skip, skip_spaces hs hp₁ (by
          rw [hp₂.rest, hx]
          exact .cons (opensSkip_of_isNameStart hstart)),
        blocksFrom_block (by rwa [hp₁.position, hposition]) hp₂,
        ih (by rw [(hp₁.trans hp₂).position, hposition]) hp₃]
      cases blocksFrom c' <;> rfl

theorem blocksFrom_nil (hc : c.rest = []) : blocksFrom c = .ok [] := by
  rw [blocksFrom, hc]
  rfl

theorem SpelledBlocks.behind_break {p : Position} {bs : List Block} {t u : List Char}
    (ht : t = [] ∨ t = ['\n']) (h : SpelledBlocks (p.afterAll t) bs u) :
    SpelledBlocks p bs (t ++ u) := by
  rcases ht with rfl | rfl
  · exact h
  · exact .line (s := []) (.spaces isSpaces_nil) rfl h

/-- Behind an empty line, or one that holds a comment only, the blocks go on. -/
theorem SpelledBlocks.behind_blank {bs : List Block} {s u : List Char} (hs : IsBlank s)
    (hp : c.Passes s c₁) (hbreak : lineBreak c₁ = some ((), c₂))
    (h : SpelledBlocks c₂.position bs u) :
    ∃ w, c.Passes w c₂ ∧ SpelledBlocks c.position bs (w ++ u) := by
  obtain ⟨x, t, hx, ht, hq⟩ := lineBreak_eq_some hbreak
  obtain ⟨d, hq₁, hq₂⟩ := hq.split_cons
  rw [hq₂.position, (hp.trans hq₁).position] at h
  exact ⟨_, hp.trans hq, by simpa using SpelledBlocks.line hs hx (h.behind_break ht)⟩

theorem blocksFrom_spells {bs : List Block} (h : blocksFrom c = .ok bs) :
    SpelledBlocks c.position bs c.rest := by
  -- each turn passes a line break or a block, so the induction is on what is left
  induction hn : c.rest.length using Nat.strongRecOn generalizing c bs with
  | ind n ih =>
      subst hn
      have hshorter := skip_length c
      rw [blocksFrom_eq] at h
      cases hc : (skip c).rest with
      | nil =>
          rw [blocksStep_nil hc] at h
          cases h
          obtain ⟨s, hs, hp⟩ := skip_spells_blank c
          rw [hp.rest, hc, List.append_nil]
          exact .nil hs
      | cons x rest =>
          cases hbreak : lineBreak (skip c) with
          | some r =>
              obtain ⟨⟨⟩, c₁⟩ := r
              have hlt := lineBreak_length hbreak
              rw [blocksStep_lineBreak hc hbreak] at h
              have hblocks := ih _ (by omega) h rfl
              obtain ⟨s, hs, hp₁⟩ := skip_spells_blank c
              obtain ⟨w, hw, hblocks⟩ := hblocks.behind_blank hs hp₁ hbreak
              rwa [hw.rest]
          | none =>
              rw [blocksStep_block hc hbreak] at h
              cases hhead : blockHead (skip c) with
              | none => simp only [hhead, reduceCtorEq] at h
              | some r =>
                  obtain ⟨k, n, c₁⟩ := r
                  simp only [hhead] at h
                  obtain ⟨⟨b, c₂⟩, hbody, hmore⟩ := bind_eq_ok_iff.mp h
                  obtain ⟨bs', hnext, hend⟩ := bind_eq_ok_iff.mp hmore
                  cases hend
                  obtain ⟨t, ht, hp₂⟩ := block_eq_ok_iff.mp ⟨k, n, c₁, hhead, hbody⟩
                  obtain ⟨y, u, hy, hstart⟩ := ht.opens
                  obtain ⟨s, hs, hp₁⟩ :=
                    skip_spells_before hp₂ ⟨y, u, hy, isLineBreak_of_isNameStart hstart⟩
                  have hlt := hp₂.length
                  rw [hy, List.length_cons] at hlt
                  have hblocks := ih c₂.rest.length (by omega) hnext rfl
                  rw [hp₁.position] at ht
                  rw [(hp₁.trans hp₂).position] at hblocks
                  rw [hp₁.rest, hp₂.rest]
                  exact .block hs ht hblocks

/-! ### Schemas -/

theorem withoutMark_eq_self {t : List Char} (h : Stops (· == '\ufeff') t) : withoutMark t = t := by
  cases t with
  | nil => rfl
  | cons x t =>
      rw [withoutMark]
      rintro rest hx
      simp [(List.cons.inj hx).1] at h

theorem IsSpaces.stops_mark {s rest : List Char} (hs : IsSpaces s)
    (hr : Stops (· == '\ufeff') rest) : Stops (· == '\ufeff') (s ++ rest) :=
  hs.stops (fun x hx => by
    rw [isSpace, Bool.or_eq_true, beq_iff_eq, beq_iff_eq] at hx
    rcases hx with rfl | rfl <;> rfl) hr

theorem IsBlank.stops_mark {s rest : List Char} (hs : IsBlank s)
    (hr : Stops (· == '\ufeff') rest) : Stops (· == '\ufeff') (s ++ rest) := by
  cases hs with
  | spaces hs => exact hs.stops_mark hr
  | comment hs _ =>
      rw [List.append_assoc]
      exact hs.stops_mark (.cons rfl)

/-- No text that spells blocks begins with a byte order mark. -/
theorem SpelledBlocks.withoutMark_eq {p : Position} {bs : List Block} {u : List Char}
    (h : SpelledBlocks p bs u) : withoutMark u = u := by
  refine withoutMark_eq_self ?_
  cases h with
  | nil hs => simpa using hs.stops_mark stops_nil
  | line hs hx _ =>
      refine hs.stops_mark (.cons ?_)
      simp only [isLineBreak, Bool.or_eq_true, beq_iff_eq] at hx
      rcases hx with rfl | rfl <;> rfl
  | block hs hb _ =>
      obtain ⟨x, w, rfl, hx⟩ := hb.opens
      refine hs.stops_mark (.cons ?_)
      by_contra hmark
      obtain rfl : x = '\ufeff' := by simpa using hmark
      exact absurd hx (by decide)

theorem Document.parse_eq (text : String) : Document.parse text =
    (blocksFrom (Cursor.ofText (withoutMark text.toList))).map Document.mk := rfl

/-- **A schema is read off the texts that spell it, and off no others.** -/
theorem Document.parse_eq_ok_iff {text : String} {d : Document} :
    Document.parse text = .ok d ↔ d.Spelled text.toList := by
  rw [Document.parse_eq, map_eq_ok_iff]
  constructor
  · rintro ⟨bs, hbs, rfl⟩
    exact blocksFrom_spells hbs
  · intro h
    obtain ⟨c', hp, hc'⟩ := Cursor.exists_passes
      (c := Cursor.ofText (withoutMark text.toList)) (List.append_nil _).symm
    refine ⟨d.blocks, ?_, rfl⟩
    rw [blocksFrom_append h rfl hp (by rw [hc']; exact stops_nil), blocksFrom_nil hc']
    simp only [Except.map, List.append_nil]

end SchemaEnums.Schema
