import SchemaEnums.Proofs.Naming.Case

/-!
# Naming — Words

Pascal case word by word.  What counts in a text are the letters and digits of ASCII and the
separators, which are hyphens, underscores and white space; what stands between separators are the
words (`words`).

`joined` is a machine with three kinds of states.  `Place.write` says what it still writes from each
of them, given what stands between the separators to come; with one lemma for a separator, one for a
letter or digit and one for anything else, this holds of the passes of `pascalize` together
(`joined_eq`).  So Pascal case is the words joined, and white space behind them that is as it stays
(`pascalize_eq`), and no later statement looks at the passes again.
-/

namespace SchemaEnums.Naming
open Text

variable {c : Char} {s : List Char} {p : Place} {inRun : Bool}

/-! ### Words of a text -/

/-- A character that separates words. -/
def isSeparator (c : Char) : Bool := isDash c || isBlank c

/-- What counts in a text: letters and digits of ASCII, and separators. -/
def material (s : List Char) : List Char := s.filter fun c => c.isAlphanum || isSeparator c

/-- What stands between separators and is not empty. -/
def words (s : List Char) : List (List Char) := (s.splitOnP isSeparator).filter (!·.isEmpty)

/-- A word with a capital and small letters. -/
def titled : List Char → List Char
  | []     => []
  | c :: w => c.toUpper :: w.map Char.toLower

/-- A word with a capital, and its other letters as they are. -/
def raised : List Char → List Char
  | []     => []
  | c :: w => c.toUpper :: w

theorem titled_eq (w : List Char) : titled w = raised (w.map Char.toLower) := by
  cases w with
  | nil => rfl
  | cons c w => rw [titled, List.map_cons, raised, Char.toUpper_toLower_eq_toUpper]

/-- The words of a text, joined.  The first keeps its letters if no separator stands before it. -/
def joinedWords (s : List Char) : List Char :=
  match words s with
  | []      => []
  | w :: ws => (if s.head?.any isSeparator then titled w else raised w) ++ ws.flatMap titled

/-- A separator stands at the end. -/
def EndsInSeparator (s : List Char) : Prop := ∃ c ∈ s.getLast?, isSeparator c = true

theorem words_separator (h : isSeparator c = true) : words (c :: s) = words s := by
  rw [words, List.splitOnP_cons_eq_if_modifyHead, if_pos h]
  rfl

/-- A character that is no separator begins the first word. -/
theorem exists_words_cons (h : isSeparator c = false) : ∃ w ws,
    (c :: s).splitOnP isSeparator = (c :: w) :: ws ∧
      words (c :: s) = (c :: w) :: ws.filter (!·.isEmpty) := by
  obtain ⟨w, ws, hws⟩ := List.exists_cons_of_ne_nil (List.splitOnP_ne_nil isSeparator s)
  have hpieces : (c :: s).splitOnP isSeparator = (c :: w) :: ws := by
    rw [List.splitOnP_cons_eq_if_modifyHead, h, if_neg (by simp), hws, List.modifyHead_cons]
  exact ⟨w, ws, hpieces, by rw [words, hpieces]; rfl⟩

/-- A text without words consists of separators. -/
theorem isSeparator_of_words_eq_nil (h : words s = []) : ∀ c ∈ s, isSeparator c = true := by
  induction s with
  | nil => exact fun _ hc => nomatch hc
  | cons c s ih =>
      by_cases hc : isSeparator c = true
      · rw [words_separator hc] at h
        exact List.forall_mem_cons.mpr ⟨hc, ih h⟩
      · obtain ⟨w, ws, -, hwords⟩ := exists_words_cons (s := s) (Bool.eq_false_of_not_eq_true hc)
        rw [hwords] at h
        cases h

/-- Empty words are written as nothing. -/
theorem flatMap_titled_filter (ws : List (List Char)) :
    (ws.filter (!·.isEmpty)).flatMap titled = ws.flatMap titled := by
  induction ws with
  | nil => rfl
  | cons w ws ih =>
      cases w with
      | nil => exact ih
      | cons c w => simpa using ih

theorem mem_of_mem_splitOnP {q : Char → Bool} {w : List Char} (hw : w ∈ s.splitOnP q)
    (hc : c ∈ w) : c ∈ s ∧ q c = false := by
  induction s generalizing w with
  | nil =>
      rw [List.splitOnP_nil, List.mem_singleton] at hw
      exact absurd (hw ▸ hc) List.not_mem_nil
  | cons x s ih =>
      rw [List.splitOnP_cons_eq_if_modifyHead] at hw
      by_cases hx : q x = true
      · rw [if_pos hx] at hw
        rcases List.mem_cons.mp hw with rfl | hw
        · cases hc
        · exact (ih hw hc).imp_left (List.mem_cons_of_mem x)
      · obtain ⟨v, vs, hvs⟩ := List.exists_cons_of_ne_nil (List.splitOnP_ne_nil q s)
        rw [if_neg hx, hvs, List.modifyHead_cons] at hw
        rw [hvs] at ih
        rcases List.mem_cons.mp hw with rfl | hw
        · rcases List.mem_cons.mp hc with rfl | hc
          · exact ⟨List.mem_cons_self, Bool.eq_false_of_not_eq_true hx⟩
          · exact (ih List.mem_cons_self hc).imp_left (List.mem_cons_of_mem x)
        · exact (ih (List.mem_cons_of_mem v hw) hc).imp_left (List.mem_cons_of_mem x)

theorem ne_nil_of_mem_words {w : List Char} (hw : w ∈ words s) : w ≠ [] := by
  simpa using (List.mem_filter.mp hw).2

/-- The words of what counts in a text consist of letters and digits. -/
theorem isAlphanum_of_mem_words {w : List Char} (hw : w ∈ words (material s)) (hc : c ∈ w) :
    c.isAlphanum = true := by
  obtain ⟨hmem, hsep⟩ := mem_of_mem_splitOnP (List.mem_of_mem_filter hw) hc
  simpa [hsep] using (List.mem_filter.mp hmem).2

/-! ### Characters -/

theorem isWordChar_of_isAlphanum (h : c.isAlphanum = true) : isWordChar c = true := by
  rw [isWordChar, h, Bool.true_or]

theorem not_isSeparator_of_isAlphanum (h : c.isAlphanum = true) : isSeparator c = false := by
  have hdash : isDash c = false := by
    by_contra hdash
    rw [Bool.not_eq_false] at hdash
    rcases (by simpa [isDash] using hdash : c = '-' ∨ c = '_') with rfl | rfl <;>
      exact absurd h (by decide)
  rw [isSeparator, hdash, not_isBlank_of_word (isWordChar_of_isAlphanum h), Bool.false_or]

theorem Recased.isAlphanum_iff {d : Char} (h : Recased c d) :
    d.isAlphanum = true ↔ c.isAlphanum = true :=
  h.iff (q := fun x => x.isAlphanum = true) <| .inl fun x hx => by
    rw [Char.isAlphanum, hx, Bool.true_or]

/-! ### The passes -/

/-- A run of white space is some. -/
def Place.Valid : Place → Prop
  | between run => run ≠ [] ∧ ∀ c ∈ run, isBlank c = true
  | _           => True

/-- What is written from a place on, given what stands between the separators to come. -/
def Place.write : Place → List (List Char) → List Char
  | first,     w :: ws => w ++ ws.flatMap titled
  | later,     w :: ws => w.map Char.toLower ++ ws.flatMap titled
  | between _, ws      => ws.flatMap titled
  | _,         []      => []

/-- How a letter or digit is written at a place. -/
def Place.letter : Place → Char → Char
  | first,     c => c
  | between _, c => c.toUpper
  | later,     c => c.toLower

/-- The place behind a letter or digit. -/
def Place.next : Place → Place
  | first => first
  | _     => later

/-- The place is behind a separator. -/
def Place.isBetween : Place → Bool
  | between _ => true
  | _         => false

/-- Behind the text stands a separator, or nothing does and one stands before it. -/
def endsBetween (before : Bool) (s : List Char) : Bool := (s.getLast?.map isSeparator).getD before

theorem endsBetween_cons (before : Bool) :
    endsBetween before (c :: s) = endsBetween (isSeparator c) s := by
  rw [endsBetween, endsBetween, List.getLast?_cons]
  cases s.getLast? <;> rfl

theorem endsBetween_false_iff : endsBetween false s = true ↔ EndsInSeparator s := by
  rw [endsBetween, EndsInSeparator]
  cases s.getLast? <;> simp

/-- Behind a separator the machine is in a run of white space, which `spaced` has written if it was
a dash. -/
theorem joined_separator (hp : p.Valid) (hrun : inRun = true → p.isBetween = true)
    (h : isSeparator c = true) : ∃ run, (Place.between run).Valid ∧
      joined p (cleaned (spaced inRun (c :: s))) =
        joined (.between run) (cleaned (spaced (isDash c) s)) := by
  by_cases hdash : isDash c = true
  · rw [spaced, hdash, if_pos rfl]
    cases inRun with
    | true =>
        cases p with
        | between run => exact ⟨run, hp, rfl⟩
        | first => exact absurd (hrun rfl) (by decide)
        | later => exact absurd (hrun rfl) (by decide)
    | false =>
        cases p with
        | between run =>
            refine ⟨run ++ [' '], ⟨by simp, ?_⟩, rfl⟩
            exact List.forall_mem_append.mpr ⟨hp.2, by simp [isBlank]⟩
        | first => exact ⟨[' '], ⟨by simp, by simp [isBlank]⟩, rfl⟩
        | later => exact ⟨[' '], ⟨by simp, by simp [isBlank]⟩, rfl⟩
  · rw [Bool.not_eq_true] at hdash
    have hblank : isBlank c = true := by simpa [isSeparator, hdash] using h
    have hcleaned : cleaned (spaced inRun (c :: s)) = c :: cleaned (spaced false s) := by
      simp [spaced, hdash, cleaned, hblank]
    rw [hcleaned, hdash]
    cases p with
    | between run =>
        refine ⟨run ++ [c], ⟨by simp, ?_⟩, by rw [joined, if_pos hblank]⟩
        exact List.forall_mem_append.mpr ⟨hp.2, by simpa using hblank⟩
    | first => exact ⟨[c], ⟨by simp, by simpa using hblank⟩, by rw [joined, if_pos hblank]⟩
    | later => exact ⟨[c], ⟨by simp, by simpa using hblank⟩, by rw [joined, if_pos hblank]⟩

/-- A letter or digit is written where it stands. -/
theorem joined_alphanum (h : c.isAlphanum = true) : joined p (cleaned (spaced inRun (c :: s))) =
    p.letter c :: joined p.next (cleaned (spaced false s)) := by
  have hdash := (Bool.or_eq_false_iff.mp (not_isSeparator_of_isAlphanum h)).1
  have hblank := not_isBlank_of_word (isWordChar_of_isAlphanum h)
  have hcleaned : cleaned (spaced inRun (c :: s)) = c :: cleaned (spaced false s) := by
    simp [spaced, hdash, cleaned, isWordChar_of_isAlphanum h]
  rw [hcleaned]
  cases p with
  | first => rw [joined, hblank, if_neg (by simp)]; rfl
  | between run => rw [joined, hblank, if_neg (by simp)]; rfl
  | later => rw [joined, hblank, if_neg (by simp)]; rfl

/-- What does not count is left out, but it ends a run of dashes. -/
theorem cleaned_spaced_immaterial (h : c.isAlphanum = false) (hsep : isSeparator c = false) :
    cleaned (spaced inRun (c :: s)) = cleaned (spaced false s) := by
  obtain ⟨hdash, hblank⟩ := Bool.or_eq_false_iff.mp hsep
  have hword : isWordChar c = false := by
    rw [isWordChar, h, Bool.false_or, beq_eq_false_iff_ne]
    rintro rfl
    exact absurd hdash (by decide)
  simp [spaced, hdash, cleaned, hword, hblank]

/-! ### White space at the end -/

/-- White space that stays as it is at the end of a text. -/
def Settled (t : List Char) : Prop := (∀ c ∈ t, isBlank c = true) ∧ trailing t = t

theorem trailing_eq_cons (x : Char) (run : List Char) : ∃ y back,
    trailing (x :: run) = y :: back ∧ y ∈ x :: run ∧ ∀ c ∈ back, c = '\n' := by
  rw [trailing]
  split
  case h_1 hfeeds =>
    exact ⟨x, run, rfl, List.mem_cons_self, by simpa using hfeeds⟩
  case h_2 y _ hfeeds =>
    have hy : y ∈ run.reverse := (List.dropWhile_sublist _).subset (hfeeds ▸ List.mem_cons_self)
    refine ⟨y, _, rfl, List.mem_cons_of_mem _ (List.mem_reverse.mp hy), fun c hc => ?_⟩
    simpa using List.mem_takeWhile_imp hc

theorem trailing_of_lineFeeds {y : Char} {back : List Char} (h : ∀ c ∈ back, c = '\n') :
    trailing (y :: back) = y :: back := by
  have hfeeds : back.reverse.dropWhile (· == '\n') = [] := by simpa using h
  rw [trailing, hfeeds]

/-- Of a run of white space some is left, and stays. -/
theorem Place.Valid.settled {run : List Char} (h : (Place.between run).Valid) :
    trailing run ≠ [] ∧ Settled (trailing run) := by
  obtain ⟨hne, hblank⟩ := h
  obtain ⟨x, more, rfl⟩ := List.exists_cons_of_ne_nil hne
  obtain ⟨y, back, htrailing, hy, hback⟩ := trailing_eq_cons x more
  rw [htrailing]
  refine ⟨by simp, List.forall_mem_cons.mpr ⟨hblank y hy, fun c hc => ?_⟩,
    trailing_of_lineFeeds hback⟩
  rw [hback c hc]
  rfl

/-! ### What the machine writes -/

theorem Place.write_separator (p : Place) (ws : List (List Char)) (run : List Char) :
    p.write ([] :: ws) = (between run).write ws := by
  cases p <;> simp [write, titled]

theorem Place.write_alphanum (p : Place) {ws : List (List Char)} (hne : ws ≠ []) :
    p.write (ws.modifyHead (c :: ·)) = p.letter c :: p.next.write ws := by
  obtain ⟨w, ws, rfl⟩ := List.exists_cons_of_ne_nil hne
  cases p <;> simp [write, letter, next, titled]

/-- **What the passes make of the rest of a text**, the capital at the front apart: what is written
from the place on, and white space if that is where the text ends. -/
theorem joined_eq (hp : p.Valid) (hrun : inRun = true → p.isBetween = true) : ∃ suffix,
    joined p (cleaned (spaced inRun s)) = p.write ((material s).splitOnP isSeparator) ++ suffix ∧
      Settled suffix ∧ (suffix ≠ [] ↔ endsBetween p.isBetween (material s) = true) := by
  -- one character at a time: a separator, one that is written, or one that is dropped
  induction s generalizing p inRun with
  | nil =>
      cases p with
      | first => exact ⟨[], rfl, ⟨by simp, rfl⟩, by decide⟩
      | later => exact ⟨[], rfl, ⟨by simp, rfl⟩, by decide⟩
      | between run => exact ⟨trailing run, rfl, hp.settled.2, iff_of_true hp.settled.1 rfl⟩
  | cons c s ih =>
      by_cases hsep : isSeparator c = true
      · obtain ⟨run, hvalid, hjoined⟩ := joined_separator (s := s) hp hrun hsep
        -- a separator ends the word; whether the text ends here is left to the rest
        obtain ⟨suffix, hsuffix, hsettled, hends⟩ := ih hvalid (fun _ => rfl)
        have hmaterial : material (c :: s) = c :: material s := by simp [material, hsep]
        refine ⟨suffix, ?_, hsettled, ?_⟩
        · rw [hjoined, hsuffix, hmaterial, List.splitOnP_cons_eq_if_modifyHead, if_pos hsep,
            p.write_separator _ run]
        · rw [hends, hmaterial, endsBetween_cons, hsep]
          rfl
      · rw [Bool.not_eq_true] at hsep
        by_cases halnum : c.isAlphanum = true
        · obtain ⟨suffix, hsuffix, hsettled, hends⟩ :=
            @ih p.next false (by cases p <;> trivial) (by simp)
          have hmaterial : material (c :: s) = c :: material s := by simp [material, halnum]
          refine ⟨suffix, ?_, hsettled, ?_⟩
          · rw [joined_alphanum halnum, hsuffix, hmaterial, List.splitOnP_cons_eq_if_modifyHead,
              hsep, if_neg (by simp), p.write_alphanum (List.splitOnP_ne_nil _ _)]
            rfl
          · rw [hends, hmaterial, endsBetween_cons, hsep]
            cases p <;> rfl
        · rw [Bool.not_eq_true] at halnum
          have hmaterial : material (c :: s) = material s := by simp [material, halnum, hsep]
          rw [cleaned_spaced_immaterial halnum hsep, hmaterial]
          exact ih hp (by simp)

/-! ### The capital at the front -/

theorem capitalized_of_blank (h : ∀ c ∈ s, isBlank c = true) : capitalized s = s := by
  induction s with
  | nil => rfl
  | cons c s ih =>
      obtain ⟨hc, hs⟩ := List.forall_mem_cons.mp h
      have hword : isWordChar c = false := by
        by_contra hword
        rw [not_isBlank_of_word (Bool.not_eq_false _ ▸ hword)] at hc
        cases hc
      rw [capitalized, hword, if_neg (by simp), ih hs]

theorem capitalized_capitalized (s : List Char) : capitalized (capitalized s) = capitalized s := by
  induction s with
  | nil => rfl
  | cons c s ih =>
      rw [capitalized]
      by_cases hword : isWordChar c = true
      · rw [if_pos hword, capitalized, if_pos ((recased_toUpper c).isWordChar_iff.mpr hword),
          Char.toUpper_toUpper_eq_toUpper]
      · rw [if_neg hword, capitalized, if_neg hword, ih]

/-- Words that have capitals keep them. -/
theorem capitalized_titled {ws : List (List Char)} {suffix : List Char}
    (hws : ∀ w ∈ ws, w ≠ [] ∧ ∀ c ∈ w, c.isAlphanum = true)
    (hblank : ∀ c ∈ suffix, isBlank c = true) :
    capitalized (ws.flatMap titled ++ suffix) = ws.flatMap titled ++ suffix := by
  cases ws with
  | nil => exact capitalized_of_blank hblank
  | cons w ws =>
      obtain ⟨hne, halnum⟩ := hws w List.mem_cons_self
      obtain ⟨c, w, rfl⟩ := List.exists_cons_of_ne_nil hne
      have hword := (recased_toUpper c).isWordChar_iff.mpr
        (isWordChar_of_isAlphanum (halnum c List.mem_cons_self))
      rw [List.flatMap_cons, titled, List.cons_append, List.cons_append, capitalized, if_pos hword,
        Char.toUpper_toUpper_eq_toUpper]

theorem joinedWords_separator (h : isSeparator c = true) :
    joinedWords (c :: s) = (words s).flatMap titled := by
  rw [joinedWords, words_separator h]
  cases words s with
  | nil => rfl
  | cons w ws => simp [h]

/-- Where no separator stands before the first word, it gets its capital last. -/
theorem capitalized_write {suffix : List Char} (hblank : ∀ c ∈ suffix, isBlank c = true) :
    capitalized (Place.first.write ((material s).splitOnP isSeparator) ++ suffix) =
      joinedWords (material s) ++ suffix := by
  have hwords : ∀ w ∈ words (material s), w ≠ [] ∧ ∀ c ∈ w, c.isAlphanum = true :=
    fun w hw => ⟨ne_nil_of_mem_words hw, fun c hc => isAlphanum_of_mem_words hw hc⟩
  revert hwords
  cases material s with
  | nil => exact fun _ => capitalized_of_blank hblank
  | cons c r =>
      intro hwords
      by_cases hsep : isSeparator c = true
      · rw [words_separator hsep] at hwords
        rw [List.splitOnP_cons_eq_if_modifyHead, if_pos hsep, Place.write_separator .first _ [],
          Place.write, joinedWords_separator hsep, ← flatMap_titled_filter]
        exact capitalized_titled hwords hblank
      · obtain ⟨w, ws, hpieces, hfirst⟩ :=
          exists_words_cons (s := r) (Bool.eq_false_of_not_eq_true hsep)
        have hc : isWordChar c = true := isWordChar_of_isAlphanum <|
          (hwords (c :: w) (hfirst ▸ List.mem_cons_self)).2 c List.mem_cons_self
        rw [hpieces, Place.write, joinedWords, hfirst]
        simp only [List.head?_cons, Option.any_some, hsep, Bool.false_eq_true, if_false, raised,
          flatMap_titled_filter, List.cons_append, capitalized, hc, if_true]

/-- Pascal case of a text, and what stands behind its words. -/
theorem pascalize_eq (s : String) : ∃ suffix,
    (pascalize s).toList = joinedWords (material s.toList) ++ suffix ∧ Settled suffix ∧
      (suffix ≠ [] ↔ EndsInSeparator (material s.toList)) := by
  obtain ⟨suffix, hjoined, hsettled, hends⟩ :=
    @joined_eq s.toList .first false trivial (by simp)
  refine ⟨suffix, ?_, hsettled, hends.trans endsBetween_false_iff⟩
  rw [pascalize, String.toList_ofList, hjoined, capitalized_write hsettled.1]

end SchemaEnums.Naming
