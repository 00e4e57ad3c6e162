import SchemaEnums.Proofs.Schema.Completeness

/-!
# Schema — ExactLines

The lines of a block are read off the texts that spell them and no others (`lines_eq_ok_iff`).

The loop over lines carries a bound that is large enough; `linesFrom` is the loop without it, and
`linesFrom_eq` says what it does at a place.  A carriage return and a line feed make one line break,
but the loop goes on alike behind either of them (`linesFrom_lineBreak`), so a spelling need not say
which it is.
-/

namespace SchemaEnums.Schema
open Text Text.Reader Grammar Literal

variable {α : Type}

/-! ### Readers of lines -/

/-- A character that a line begins with. -/
def Grammar.opensLine (x : Char) : Bool := isNameStart x || x == '@'

/-- The lines that `read` reads are those with `S`. -/
structure LineReader (read : Reader (Checked α)) (S : Position → α → List Char → Prop) :
    Prop where
  spells  : SpellsLine read S
  reads   : ReadsLine read S
  refuses : ∀ rest, Stops opensLine rest → Refuses read rest
  opens   : ∀ ⦃p : Position⦄ ⦃a : α⦄ ⦃t : List Char⦄, S p a t →
    ∃ x u, t = x :: u ∧ opensLine x = true

theorem stops_name_of_stops_line {rest : List Char} (h : Stops opensLine rest) :
    Stops isNameStart rest := h.mono fun x hx => by rw [opensLine, hx, Bool.true_or]

theorem line_lineReader {item : Reader (Checked α)} {S : Position → α → List Char → Prop}
    (spells : SpellsLine item S) (reads : ReadsLine item S)
    (refuses : ∀ rest, Stops isNameStart rest → Refuses item rest)
    (opens : ∀ p a t, S p a t → ∃ x u, t = x :: u ∧ isNameStart x = true) :
    LineReader (line item) (Line.Spelled S) where
  spells  := line_spells spells
  reads   := line_reads reads fun _ => refuses _ (.cons rfl)
  refuses := fun rest h => by
    cases rest with
    | nil =>
        intro c hc
        have h₁ := refuses _ (stops_name_of_stops_line h) c hc
        have h₂ : c.eat? ['@', '@'] = none := by simp [Cursor.eat?, hc]
        simp only [line, h₁, attributeAfter, h₂, Option.bind_eq_bind, Option.bind_none,
          Option.map_none]
        rfl
    | cons x rest =>
        rw [stops_cons, opensLine, Bool.or_eq_false_iff] at h
        exact line_refuses h.2 (refuses _ (.cons h.1))
  opens   := fun p l t h => by
    cases h with
    | item h =>
        obtain ⟨x, u, hx, hopens⟩ := opens _ _ _ h
        exact ⟨x, u, hx, by rw [opensLine, hopens, Bool.true_or]⟩
    | blockAttribute h => exact ⟨'@', _, rfl, rfl⟩

theorem IsName.opens_append {n : List Char} (h : IsName n) (t : List Char) :
    ∃ x u, n ++ t = x :: u ∧ isNameStart x = true := by
  obtain ⟨x, u, rfl, hx⟩ := h.opens
  exact ⟨x, u ++ t, rfl, hx⟩

theorem field_lineReader : LineReader (line field) (Line.Spelled Field.Spelled) :=
  line_lineReader field_spells field_reads (fun _ => field_refuses) fun p f t h => by
    cases h with
    | mk hname => exact hname.name.opens_append _

theorem enumValue_lineReader : LineReader (line enumValue) (Line.Spelled EnumValue.Spelled) :=
  line_lineReader enumValue_spells enumValue_reads (fun _ => enumValue_refuses) fun p v t h => by
    cases h with
    | mk hname => exact hname.name.opens_append _

theorem setting_lineReader : LineReader setting Setting.Spelled where
  spells  := setting_spells
  reads   := setting_reads
  refuses := fun _ h => setting_refuses (stops_name_of_stops_line h)
  opens   := fun p s t h => by
    cases h with
    | mk hkey =>
        obtain ⟨x, u, hx, hopens⟩ := hkey.name.opens_append _
        exact ⟨x, u, hx, by rw [opensLine, hopens, Bool.true_or]⟩

/-! ### Where a line ends -/

theorem endsLine_of_spaces {s : List Char} (hs : IsSpaces s) (rest : List Char) :
    EndsLine (s ++ '}' :: rest) := fun p => by
  obtain ⟨c', hp, hrest⟩ := Cursor.exists_passes (c := ⟨p, s ++ '}' :: rest⟩) rfl
  rw [skip_spaces hs hp (by rw [hrest]; exact .cons rfl), hrest]
  exact .cons rfl

theorem endsLine_of_blank {s : List Char} (hs : IsBlank s) {x : Char} (hx : isLineBreak x = true)
    (rest : List Char) : EndsLine (s ++ x :: rest) := fun p => by
  obtain ⟨c', hp, hrest⟩ := Cursor.exists_passes (c := ⟨p, s ++ x :: rest⟩) rfl
  rw [skip_blank hs hp (by rw [hrest]; exact atBreak_cons hx rest), hrest]
  exact .cons (by rw [hx, Bool.or_true]; rfl)

theorem lineEnd_of_brace {c : Cursor} {rest : List Char} (hc : c.rest = '}' :: rest) :
    lineEnd c = some c := by simp only [lineEnd, hc]

theorem lineEnd_of_break {c : Cursor} {x : Char} {rest : List Char} (hx : isLineBreak x = true)
    (hc : c.rest = x :: rest) : lineEnd c = (lineBreak c).map (·.2) := by
  rw [lineEnd]
  split
  case h_1 h => rw [hc] at h; cases h
  case h_2 h =>
    rw [hc] at h
    obtain ⟨rfl, -⟩ := List.cons.inj h
    exact absurd hx (by decide)
  case h_3 => rfl

theorem lineEnd_cases {c c' : Cursor} (h : lineEnd c = some c') :
    c.rest = [] ∧ c' = c ∨ (∃ rest, c.rest = '}' :: rest) ∧ c' = c ∨
      lineBreak c = some ((), c') := by
  rw [lineEnd] at h
  split at h
  case h_1 hc => exact .inl ⟨hc, (Option.some.inj h).symm⟩
  case h_2 rest hc => exact .inr (.inl ⟨⟨rest, hc⟩, (Option.some.inj h).symm⟩)
  case h_3 =>
    obtain ⟨⟨⟨⟩, c₁⟩, hbreak, rfl⟩ := Option.map_eq_some_iff.mp h
    exact .inr (.inr hbreak)

theorem lineEnd_length {c c' : Cursor} (h : lineEnd c = some c') :
    c'.rest.length ≤ c.rest.length := by
  rcases lineEnd_cases h with ⟨-, rfl⟩ | ⟨-, rfl⟩ | h
  · exact Nat.le_refl _
  · exact Nat.le_refl _
  · exact Nat.le_of_lt (lineBreak_length h)

theorem opensLine_of_isLineBreak {x : Char} (h : isLineBreak x = true) : opensLine x = false := by
  simp only [isLineBreak, Bool.or_eq_true, beq_iff_eq] at h
  rcases h with rfl | rfl <;> rfl

theorem isLineBreak_of_opensLine {x : Char} (h : opensLine x = true) : isLineBreak x = false := by
  by_contra hx
  rw [opensLine_of_isLineBreak (by simpa using hx)] at h
  cases h

theorem opensSkip_of_opensLine {x : Char} (h : opensLine x = true) : opensSkip x = false := by
  simp only [opensLine, Bool.or_eq_true, beq_iff_eq] at h
  rcases h with h | rfl
  · exact opensSkip_of_isNameStart h
  · rfl

/-! ### The lines of a block -/

/-- A line that is read to its end. -/
def wholeLine (read : Reader (Checked α)) : Reader (Checked α) := fun c => do
  let (a, c) ← read c
  let c ← lineEnd (skip c)
  some (a, c)

/-- The lines from a place on. -/
def linesFrom (read : Reader (Checked α)) (fault : Fault) (c : Cursor) :
    Checked (List α × Cursor) := linesWithin read fault c.rest c

section Lines

variable {read : Reader (Checked α)} {S : Position → α → List Char → Prop} {fault : Fault}
  {c c₁ c' : Cursor}

/-- A line that is read to its end is spelled up to blanks before that. -/
theorem LineReader.wholeLine_spells (h : LineReader read S) {a : α}
    (hwhole : wholeLine read (skip c) = some (.ok a, c')) :
    ∃ s t c₁, IsSpaces s ∧ S (c.position.afterAll s) a t ∧ t ≠ [] ∧ c.Passes (s ++ t) c₁ ∧
      lineEnd (skip c₁) = some c' := by
  simp only [wholeLine, Option.bind_eq_bind, Option.bind_eq_some_iff, Option.some.injEq,
    Prod.mk.injEq] at hwhole
  obtain ⟨⟨_, c₀⟩, hread, c₂, hend, rfl, rfl⟩ := hwhole
  obtain ⟨t, c₁, hp₂, hskip, ht⟩ := h.spells hread
  have ha := ht a rfl
  obtain ⟨x, w, rfl, hx⟩ := h.opens ha
  obtain ⟨s, hs, hp₁⟩ := skip_spells_before hp₂ ⟨x, w, rfl, isLineBreak_of_opensLine hx⟩
  rw [hp₁.position] at ha
  exact ⟨s, x :: w, c₁, hs, ha, List.cons_ne_nil _ _, hp₁.trans hp₂, by rw [hskip, hend]⟩

theorem LineReader.wholeLine_length (h : LineReader read S) {a : α}
    (hwhole : wholeLine read (skip c) = some (.ok a, c')) : c'.rest.length < c.rest.length := by
  obtain ⟨s, t, c₁, -, -, hne, hp, hend⟩ := h.wholeLine_spells hwhole
  have h₁ := lineEnd_length hend
  have h₂ := skip_length c₁
  have h₃ := hp.length
  have h₄ := List.length_pos_iff.mpr hne
  rw [List.length_append] at h₃
  omega

/-- An item on its line, up to where the line ends. -/
theorem LineReader.wholeLine_eq (h : LineReader read S) {a : α} {s t : List Char} {c₂ : Cursor}
    (hs : IsSpaces s) (ha : S (c.position.afterAll s) a t) (hp₁ : c.Passes s c₁)
    (hp₂ : c₁.Passes t c₂) (hends : EndsLine c₂.rest) (hskip : skip c₂ = c') :
    wholeLine read (skip c) = (lineEnd c').map (.ok a, ·) := by
  obtain ⟨x, w, hx, hopens⟩ := h.opens ha
  have hspaces := skip_spaces hs hp₁ (by
    rw [hp₂.rest, hx]
    exact .cons (opensSkip_of_opensLine hopens))
  rw [← hp₁.position] at ha
  obtain ⟨c₃, hread, hend⟩ := h.reads ha hp₂ hends
  simp only [wholeLine, hspaces, hread, hend, hskip, Option.bind_eq_bind, Option.bind_some]
  cases lineEnd c' <;> rfl

/-- What the lines at a place are, if those behind it are given by `next`. -/
def linesStep (read : Reader (Checked α)) (fault : Fault)
    (next : Cursor → Checked (List α × Cursor)) (c : Cursor) : Checked (List α × Cursor) :=
  match wholeLine read (skip c) with
  | some (a, c') => do
    let a ← a
    let (as, c') ← next c'
    .ok (a :: as, c')
  | none =>
    match lineBreak (skip c) with
    | some ((), c') => next c'
    | none          =>
      if (lineEnd (skip c)).isSome then .ok ([], skip c) else .error ⟨(skip c).position, fault⟩

/-- A step looks at what follows behind a shorter text only. -/
theorem LineReader.linesStep_congr (h : LineReader read S)
    {next next' : Cursor → Checked (List α × Cursor)}
    (hnext : ∀ d : Cursor, d.rest.length < c.rest.length → next d = next' d) :
    linesStep read fault next c = linesStep read fault next' c := by
  have hlength := skip_length c
  rw [linesStep, linesStep]
  cases hwhole : wholeLine read (skip c) with
  | some r =>
      obtain ⟨b, c'⟩ := r
      cases b with
      | error e => rfl
      | ok a =>
          have hlt := h.wholeLine_length hwhole
          dsimp only
          rw [hnext c' (by omega)]
  | none =>
      cases hbreak : lineBreak (skip c) with
      | some r =>
          have hlt := lineBreak_length hbreak
          dsimp only
          rw [hnext r.2 (by omega)]
      | none => rfl

theorem LineReader.linesStep_nil (h : LineReader read S)
    {next : Cursor → Checked (List α × Cursor)} (hc : c.rest = []) :
    linesStep read fault next c = .ok ([], c) := by
  have hstay : skip c = c := skip_eq_self (by rw [hc]; exact stops_nil)
  have h₁ : wholeLine read c = none := by
    simp only [wholeLine, h.refuses [] stops_nil c hc, Option.bind_eq_bind, Option.bind_none]
  have h₂ : lineBreak c = none := lineBreak_refuses stops_nil c hc
  have h₃ : lineEnd c = some c := by simp only [lineEnd, hc]
  simp only [linesStep, hstay, h₁, h₂, h₃, Option.isSome_some, if_true]

theorem LineReader.loops (h : LineReader read S) (fault : Fault) :
    Loops (linesWithin read fault) (linesStep read fault) where
  cons  := fun _ _ _ => rfl
  nil   := fun _ {_} hc => h.linesStep_nil hc
  congr := h.linesStep_congr

/-- **What the lines from a place on are.** -/
theorem LineReader.linesFrom_eq (h : LineReader read S) (fault : Fault) (c : Cursor) :
    linesFrom read fault c = linesStep read fault (linesFrom read fault) c :=
  (h.loops fault).eq_step c

theorem LineReader.linesFrom_skip (h : LineReader read S) (fault : Fault) (c : Cursor) :
    linesFrom read fault (skip c) = linesFrom read fault c := by
  rw [h.linesFrom_eq, h.linesFrom_eq fault c, linesStep, linesStep, skip_skip]

theorem LineReader.wholeLine_refuses (h : LineReader read S) {rest : List Char}
    (hr : Stops opensLine rest) : Refuses (wholeLine read) rest := fun c hc => by
  simp only [wholeLine, h.refuses rest hr c hc, Option.bind_eq_bind, Option.bind_none]

theorem LineReader.linesFrom_lineBreak (h : LineReader read S) (fault : Fault) {x : Char}
    (hx : isLineBreak x = true) (hp : c.Passes [x] c₁) :
    linesFrom read fault c = linesFrom read fault c₁ := by
  refine eq_behind_lineBreak (fun {d d' y rest} hy hd hd' => ?_) hx hp
  have hstay : skip d = d := skip_eq_self (by rw [hd]; exact .cons (opensSkip_of_isLineBreak hy))
  have hnone := h.wholeLine_refuses (.cons (opensLine_of_isLineBreak hy)) d hd
  rw [h.linesFrom_eq, linesStep, hstay, hnone, hd']

theorem LineReader.linesFrom_brace (h : LineReader read S) (fault : Fault) {rest : List Char}
    (hc : (skip c).rest = '}' :: rest) : linesFrom read fault c = .ok ([], skip c) := by
  have hnone := h.wholeLine_refuses (.cons rfl) _ hc
  have hbreak : lineBreak (skip c) = none := lineBreak_refuses (.cons rfl) _ hc
  rw [h.linesFrom_eq, linesStep, hnone, hbreak]
  simp only [lineEnd_of_brace hc, Option.isSome_some, if_true]

theorem LineReader.linesFrom_item (h : LineReader read S) (fault : Fault) {a : α}
    (hread : wholeLine read (skip c) = some (.ok a, c')) : linesFrom read fault c =
      linesFrom read fault c' >>= fun r => .ok (a :: r.1, r.2) := by
  rw [h.linesFrom_eq, linesStep, hread]
  rfl

theorem LineReader.linesFrom_reads (h : LineReader read S) (fault : Fault) {p : Position}
    {as : List α} {u : List Char} (hu : SpelledLines S p as u) (hposition : c.position = p)
    (hp : c.Passes u c') {rest : List Char} (hc' : c'.rest = '}' :: rest) :
    linesFrom read fault c = .ok (as, c') := by
  induction hu generalizing c with
  | close hs =>
      have hskip := skip_spaces hs hp (by rw [hc']; exact .cons rfl)
      rw [h.linesFrom_brace fault (by rw [hskip, hc']), hskip]
  | @last p a s s' t hs ha hs' =>
      obtain ⟨c₁, hp₁, hp⟩ := hp.split
      obtain ⟨c₂, hp₂, hp₃⟩ := hp.split
      have hends : EndsLine c₂.rest := by
        rw [hp₃.rest, hc']
        exact endsLine_of_spaces hs' rest
      have hwhole := h.wholeLine_eq hs (by rwa [hposition]) hp₁ hp₂ hends
        (skip_spaces hs' hp₃ (by rw [hc']; exact .cons rfl))
      rw [lineEnd_of_brace hc', Option.map_some] at hwhole
      -- behind the item the brace comes next, and the lines are over
      have hstay : skip c' = c' := skip_eq_self (by rw [hc']; exact .cons rfl)
      rw [h.linesFrom_item fault hwhole, h.linesFrom_brace fault (by rw [hstay, hc']), hstay]
      rfl
  | @blank p as s u x hs hx _ ih =>
      obtain ⟨c₁, hp₁, hp⟩ := hp.split
      obtain ⟨c₂, hp₂, hp₃⟩ := hp.split_cons
      have hskip := skip_blank hs hp₁ (by rw [hp₂.rest]; exact atBreak_cons hx _)
      rw [← h.linesFrom_skip, hskip, h.linesFrom_lineBreak fault hx hp₂]
      exact ih (by rw [(hp₁.trans hp₂).position, hposition]) hp₃
  | @item p a as s s' t u x hs ha hs' hx _ ih =>
      obtain ⟨c₁, hp₁, hp⟩ := hp.split
      obtain ⟨c₂, hp₂, hp⟩ := hp.split
      obtain ⟨c₃, hp₃, hp⟩ := hp.split
      obtain ⟨c₄, hp₄, hp₅⟩ := hp.split_cons
      have hih := ih (by rw [(hp₁.trans (hp₂.trans (hp₃.trans hp₄))).position, hposition]) hp₅
      have hends : EndsLine c₂.rest := by
        rw [hp₃.rest, hp₄.rest]
        exact endsLine_of_blank hs' hx _
      have hwhole := h.wholeLine_eq hs (by rwa [hposition]) hp₁ hp₂ hends
        (skip_blank hs' hp₃ (by rw [hp₄.rest]; exact atBreak_cons hx _))
      rw [lineEnd_of_break hx hp₄.rest, Option.map_map] at hwhole
      -- whichever line break it is, the lines go on alike
      rcases lineBreak_of_passes hx hp₄ with hbreak | ⟨d, hd, hbreak⟩
      · rw [hbreak] at hwhole
        rw [h.linesFrom_item fault hwhole, hih]
        rfl
      · rw [hbreak] at hwhole
        rw [h.linesFrom_item fault hwhole, ← h.linesFrom_lineBreak fault rfl hd, hih]
        rfl

/-- The line feed behind a carriage return ends an empty line. -/
theorem SpelledLines.behind_break {p : Position} {as : List α} {t u : List Char}
    (ht : t = [] ∨ t = ['\n']) (h : SpelledLines S (p.afterAll t) as u) :
    SpelledLines S p as (t ++ u) := by
  rcases ht with rfl | rfl
  · exact h
  · exact .blank (s := []) (.spaces isSpaces_nil) rfl h

/-- Behind an empty line, or one that holds a comment only, the lines of a block go on. -/
theorem SpelledLines.behind_blank {as : List α} {s u : List Char} (hs : IsBlank s)
    (hp : c.Passes s c₁) (hbreak : lineBreak c₁ = some ((), c₂))
    (h : SpelledLines S c₂.position as u) :
    ∃ w, c.Passes w c₂ ∧ SpelledLines S c.position as (w ++ u) := by
  obtain ⟨x, t, hx, ht, hq⟩ := lineBreak_eq_some hbreak
  obtain ⟨d, hq₁, hq₂⟩ := hq.split_cons
  rw [hq₂.position, (hp.trans hq₁).position] at h
  exact ⟨_, hp.trans hq, by simpa using SpelledLines.blank hs hx (h.behind_break ht)⟩

/-- Behind an item and its line break the lines of a block go on. -/
theorem SpelledLines.behind_item {a : α} {as : List α} {s s' t u : List Char} (hs : IsSpaces s)
    (ha : S (c.position.afterAll s) a t) (hs' : IsBlank s') (hp : c.Passes (s ++ (t ++ s')) c₁)
    (hbreak : lineBreak c₁ = some ((), c₂)) (h : SpelledLines S c₂.position as u) :
    ∃ w, c.Passes w c₂ ∧ SpelledLines S c.position (a :: as) (w ++ u) := by
  obtain ⟨x, v, hx, hv, hq⟩ := lineBreak_eq_some hbreak
  obtain ⟨d, hq₁, hq₂⟩ := hq.split_cons
  rw [hq₂.position, (hp.trans hq₁).position] at h
  refine ⟨_, hp.trans hq, ?_⟩
  simpa using SpelledLines.item hs ha hs' hx (by simpa using h.behind_break hv)

theorem LineReader.linesFrom_spells (h : LineReader read S) {as : List α} {rest : List Char}
    (hok : linesFrom read fault c = .ok (as, c')) (hc' : c'.rest = '}' :: rest) :
    ∃ u, SpelledLines S c.position as u ∧ c.Passes u c' := by
  -- each turn passes a line break at least, so the induction is on what is left
  induction hn : c.rest.length using Nat.strongRecOn generalizing c as with
  | ind n ih =>
      subst hn
      have hshorter := skip_length c
      rw [h.linesFrom_eq, linesStep] at hok
      cases hwhole : wholeLine read (skip c) with
      | some r =>
          obtain ⟨b, c₃⟩ := r
          simp only [hwhole] at hok
          obtain ⟨a, rfl, hmore⟩ := bind_eq_ok_iff.mp hok
          obtain ⟨⟨as', c''⟩, hnext, hend⟩ := bind_eq_ok_iff.mp hmore
          cases hend
          have hlt := h.wholeLine_length hwhole
          obtain ⟨s, t, c₁, hs, ha, -, hp, hend⟩ := h.wholeLine_spells hwhole
          obtain ⟨c₀, hp₁, hp₂⟩ := hp.split
          rcases lineEnd_cases hend with ⟨hnil, rfl⟩ | ⟨⟨rest', hbrace⟩, rfl⟩ | hbreak
          · -- the text is over, so no brace follows
            rw [h.linesFrom_eq, h.linesStep_nil hnil] at hnext
            cases hnext
            rw [hnil] at hc'
            cases hc'
          · -- the brace stands on the line of the last item
            rw [h.linesFrom_brace fault (by rw [skip_skip, hbrace]), skip_skip] at hnext
            cases hnext
            obtain ⟨s', hs', hp₃⟩ := skip_spells_spaces (c := c₁) (not_atBreak hbrace rfl)
            exact ⟨_, .last hs ha hs', hp₁.trans (hp₂.trans hp₃)⟩
          · obtain ⟨u, hu, hp₆⟩ := ih _ hlt hnext rfl
            obtain ⟨s', hs', hp₃⟩ := skip_spells_blank c₁
            obtain ⟨w, hw, hu⟩ :=
              hu.behind_item hs ha hs' (hp₁.trans (hp₂.trans hp₃)) hbreak
            exact ⟨_, hu, hw.trans hp₆⟩
      | none =>
          simp only [hwhole] at hok
          cases hbreak : lineBreak (skip c) with
          | some r =>
              obtain ⟨⟨⟩, c₁⟩ := r
              simp only [hbreak] at hok
              have hlt := lineBreak_length hbreak
              obtain ⟨u, hu, hp₄⟩ := ih _ (by omega) hok rfl
              obtain ⟨s, hs, hp₁⟩ := skip_spells_blank c
              obtain ⟨w, hw, hu⟩ := hu.behind_blank hs hp₁ hbreak
              exact ⟨_, hu, hw.trans hp₄⟩
          | none =>
              simp only [hbreak] at hok
              split at hok
              case isTrue =>
                cases hok
                obtain ⟨s, hs, hp⟩ := skip_spells_spaces (c := c) (not_atBreak hc' rfl)
                exact ⟨s, .close hs, hp⟩
              case isFalse => cases hok

/-- **The lines of a block are read off the texts that spell them.** -/
theorem LineReader.lines_eq_ok_iff (h : LineReader read S) {as : List α} :
    lines read fault c = .ok (as, c') ↔
      ∃ u, SpelledLines S c.position as u ∧ c.Passes (u ++ ['}']) c' := by
  constructor
  · intro hok
    obtain ⟨⟨as', c₁⟩, hlines, hok⟩ := bind_eq_ok_iff.mp hok
    cases hbrace : c₁.eat? ['}'] with
    | none => simp only [hbrace, reduceCtorEq] at hok
    | some c₂ =>
        simp only [hbrace, Except.ok.injEq, Prod.mk.injEq] at hok
        obtain ⟨rfl, rfl⟩ := hok
        have hp := Cursor.eat?_passes hbrace
        obtain ⟨u, hu, hp'⟩ := h.linesFrom_spells hlines hp.rest
        exact ⟨u, hu, hp'.trans hp⟩
  · rintro ⟨u, hu, hp⟩
    obtain ⟨c₁, hp₁, hp₂⟩ := hp.split
    refine bind_eq_ok_iff.mpr ⟨(as, c₁), h.linesFrom_reads fault hu rfl hp₁ hp₂.rest, ?_⟩
    simp only [hp₂.eat?]

end Lines

end SchemaEnums.Schema
