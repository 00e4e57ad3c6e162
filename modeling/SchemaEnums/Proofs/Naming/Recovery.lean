import SchemaEnums.Proofs.Naming.Pascal

/-!
# Naming — Recovery

Which values of enums are called the same: those with the same words but for the case of their
letters (`memberName_eq_iff`), as long as no word starts with a digit and no dash stands at the end.

The name of a member is then its words in lower case, each behind a capital
(`memberName_eq`).  No separator is left in it, but the capitals tell where the words begin, so
the words can be taken off its front one by one (`titled_injective`).
-/

namespace SchemaEnums.Naming
open Text Schema Grammar Enums

variable {c : Char} {s w : List Char}

/-! ### Words in lower case -/

/-- The words of a text in lower case. -/
def foldedWords (s : List Char) : List (List Char) := (words s).map (·.map Char.toLower)

/-- A name that ends in no dash and whose words start with letters. -/
structure IsPlain (n : List Char) : Prop where
  name    : IsName n
  ending  : n.getLast?.any isDash = false
  letters : ∀ w ∈ words n, w.head?.any Char.isAlpha = true

instance : DecidablePred IsPlain := fun n =>
  decidable_of_iff (IsName n ∧ n.getLast?.any isDash = false ∧
      ∀ w ∈ words n, w.head?.any Char.isAlpha = true)
    ⟨fun ⟨name, ending, letters⟩ => ⟨name, ending, letters⟩, fun h => ⟨h.name, h.ending, h.letters⟩⟩

theorem lower_of_isNameChar (h : isNameChar c = true) : lower c = [c.toLower] := by
  rw [lower]
  · rintro rfl
    exact absurd h (by decide)
  · rintro rfl
    exact absurd h (by decide)

theorem Recased.isSeparator_eq {d : Char} (h : Recased c d) : isSeparator d = isSeparator c :=
  Bool.eq_iff_iff.mpr <| h.iff (q := fun x => isSeparator x = true) <| .inr fun x hx hsep => by
    rw [not_isSeparator_of_isAlphanum (by rw [Char.isAlphanum, hx, Bool.true_or])] at hsep
    cases hsep

/-- A change of characters that moves no separator changes word by word. -/
theorem splitOnP_map {f : Char → Char} {q : Char → Bool} (h : ∀ c, q (f c) = q c)
    (s : List Char) : (s.map f).splitOnP q = (s.splitOnP q).map (·.map f) := by
  induction s with
  | nil => rfl
  | cons c s ih =>
      rw [List.map_cons, List.splitOnP_cons_eq_if_modifyHead, List.splitOnP_cons_eq_if_modifyHead,
        h c, ih]
      obtain ⟨w, ws, hws⟩ := List.exists_cons_of_ne_nil (List.splitOnP_ne_nil q s)
      rw [hws]
      split <;> rfl

theorem words_map_toLower (s : List Char) : words (s.map Char.toLower) = foldedWords s := by
  have hempty : ∀ ws : List (List Char), (ws.map (·.map Char.toLower)).filter (!·.isEmpty) =
      (ws.filter (!·.isEmpty)).map (·.map Char.toLower) := fun ws => by
    rw [List.filter_map]
    congr 2
    funext w
    simp
  rw [words, splitOnP_map fun c => (recased_toLower c).isSeparator_eq, hempty]
  rfl

/-- In lower case already, the first word is written like the others. -/
theorem joinedWords_of_lower (h : ∀ c ∈ s, c.toLower = c) :
    joinedWords s = (words s).flatMap titled := by
  rw [joinedWords]
  cases hws : words s with
  | nil => rfl
  | cons w ws =>
      have hw : w ∈ s.splitOnP isSeparator := List.mem_of_mem_filter (hws ▸ List.mem_cons_self)
      have htitled : titled w = raised w := by
        rw [titled_eq, List.map_congr_left (g := id), List.map_id]
        exact fun x hx => h x (mem_of_mem_splitOnP hw hx).1
      show (if _ then titled w else raised w) ++ ws.flatMap titled = _
      rw [List.flatMap_cons, htitled, ite_self]

/-! ### The words of a name -/

/-- The separators of a name are its dashes. -/
theorem isSeparator_of_isNameChar (h : isNameChar c = true) : isSeparator c = isDash c := by
  rcases isNameChar_cases h with rfl | hword
  · rfl
  · rw [isSeparator, not_isBlank_of_word hword, Bool.or_false]

/-- What counts in a name is all of it. -/
theorem material_of_name (h : ∀ x ∈ s, isNameChar x = true) : material s = s := by
  rw [material, List.filter_eq_self]
  intro x hx
  rcases isNameChar_cases (h x hx) with rfl | hword
  · rfl
  · simp only [isWordChar, Bool.or_eq_true, beq_iff_eq] at hword
    rcases hword with halnum | rfl
    · rw [halnum, Bool.true_or]
    · rfl

theorem flatMap_lower (h : ∀ x ∈ s, isNameChar x = true) :
    s.flatMap lower = s.map Char.toLower := by
  rw [List.map_eq_flatMap]
  exact List.flatMap_congr fun c hc => lower_of_isNameChar (h c hc)

theorem material_map_toLower (h : ∀ x ∈ s, isNameChar x = true) :
    material (s.map Char.toLower) = s.map Char.toLower := by
  refine material_of_name fun x hx => ?_
  obtain ⟨c, hc, rfl⟩ := List.mem_map.mp hx
  rcases isNameChar_cases (h c hc) with rfl | hword
  · rfl
  · exact isNameChar_of_isWordChar ((recased_toLower c).isWordChar_iff.mpr hword)

theorem IsPlain.not_endsInSeparator (h : IsPlain s) : ¬ EndsInSeparator (s.map Char.toLower) := by
  rintro ⟨x, hx, hsep⟩
  rw [List.getLast?_map] at hx
  obtain ⟨c, hc, rfl⟩ := Option.map_eq_some_iff.mp hx
  have hdash : isDash c = false := by simpa [hc] using h.ending
  rw [(recased_toLower c).isSeparator_eq,
    isSeparator_of_isNameChar (h.name.all c (List.mem_of_getLast? hc)), hdash] at hsep
  cases hsep

/-- **What a value is called**, if it has a plain name: its words in lower case, each behind a
capital. -/
theorem memberName_eq {n : String} (h : IsPlain n.toList) :
    (memberName n).toList = (foldedWords n.toList).flatMap titled := by
  obtain ⟨suffix, htext, -, hsuffix⟩ := pascalize_eq (String.ofList (n.toList.flatMap lower))
  rw [String.toList_ofList, flatMap_lower h.name.all, material_map_toLower h.name.all]
    at htext hsuffix
  have hnil : suffix = [] := not_ne_iff.mp fun hne => h.not_endsInSeparator (hsuffix.mp hne)
  rw [memberName, flatMap_lower h.name.all, htext, hnil, List.append_nil,
    joinedWords_of_lower (by simp), words_map_toLower]

/-- A plain name has a word, as a separator stands nowhere at its end. -/
theorem IsPlain.words_ne_nil (h : IsPlain s) : words s ≠ [] := by
  intro hnil
  have hne : s ≠ [] := h.name.ne_nil
  have hsep := isSeparator_of_words_eq_nil hnil (s.getLast hne) (List.getLast_mem hne)
  have hdash : isDash (s.getLast hne) = false := by
    simpa [List.getLast?_eq_some_getLast hne] using h.ending
  rw [isSeparator_of_isNameChar (h.name.all _ (List.getLast_mem hne)), hdash] at hsep
  cases hsep

/-- Plain values can be called by their names. -/
theorem isIdentifier_memberName {n : String} (h : IsPlain n.toList) :
    isIdentifier (memberName n) = true := by
  rw [memberName, isIdentifier_pascalize_iff, String.toList_ofList, flatMap_lower h.name.all,
    material_map_toLower h.name.all, words_map_toLower]
  refine ⟨?_, h.not_endsInSeparator⟩
  obtain ⟨w, ws, hws⟩ := List.exists_cons_of_ne_nil h.words_ne_nil
  have hw : w ∈ words n.toList := hws ▸ List.mem_cons_self
  obtain ⟨c, w, rfl⟩ := List.exists_cons_of_ne_nil (ne_nil_of_mem_words hw)
  refine ⟨c.toLower, w.map Char.toLower, ws.map (·.map Char.toLower), ?_, ?_⟩
  · rw [foldedWords, hws]
    rfl
  · rw [Char.isAlpha_toLower_eq_isAlpha]
    exact h.letters _ hw

/-! ### Words read back -/

/-- A word in lower case that starts with a letter. -/
structure IsFolded (w : List Char) : Prop where
  starts : ∃ c v, w = c :: v ∧ c.isLower = true
  lower  : ∀ c ∈ w, c.toLower = c

theorem IsPlain.folded {n : List Char} (h : IsPlain n) : ∀ w ∈ foldedWords n, IsFolded w := by
  intro w hw
  obtain ⟨v, hv, rfl⟩ := List.mem_map.mp hw
  obtain ⟨c, v, rfl⟩ := List.exists_cons_of_ne_nil (ne_nil_of_mem_words hv)
  refine ⟨⟨c.toLower, v.map Char.toLower, rfl, ?_⟩, fun x hx => ?_⟩
  · rw [Char.isLower_toLower_eq_isAlpha]
    exact h.letters _ hv
  · obtain ⟨y, -, rfl⟩ := List.mem_map.mp hx
    exact Char.toLower_toLower_eq_toLower y

/-- A folded word is written as its first letter, raised, and the others as they are. -/
theorem IsFolded.exists_titled (h : IsFolded w) : ∃ c v, w = c :: v ∧ c.toLower = c ∧
    titled w = c.toUpper :: v ∧ c.toUpper.isUpper = true ∧ ∀ x ∈ v, x.isUpper = false := by
  obtain ⟨⟨c, v, rfl, hc⟩, hlower⟩ := h
  obtain ⟨hfirst, hrest⟩ := List.forall_mem_cons.mp hlower
  refine ⟨c, v, rfl, hfirst, ?_, ?_, fun x hx => ?_⟩
  · rw [titled, List.map_congr_left (g := id) hrest, List.map_id]
  · rw [Char.isUpper_toUpper_eq_isAlpha, Char.isAlpha, hc, Bool.or_true]
  · rw [← hrest x hx]
    exact Char.isUpper_toLower_eq_false x

/-- Behind a word the next one starts with a capital. -/
theorem stops_flatMap_titled {ws : List (List Char)} (h : ∀ w ∈ ws, IsFolded w) :
    Stops (!·.isUpper) (ws.flatMap titled) := by
  cases ws with
  | nil => exact stops_nil
  | cons w ws =>
      obtain ⟨c, v, -, -, htitled, hupper, -⟩ := (h w List.mem_cons_self).exists_titled
      rw [List.flatMap_cons, htitled]
      exact .cons (by rw [hupper]; rfl)

/-- **Folded words are told from what is written of them.**  A word ends where the next capital
stands. -/
theorem titled_injective : ∀ {ws vs : List (List Char)}, (∀ w ∈ ws, IsFolded w) →
    (∀ v ∈ vs, IsFolded v) → ws.flatMap titled = vs.flatMap titled → ws = vs := by
  intro ws
  induction ws with
  | nil =>
      intro vs _ hvs h
      cases vs with
      | nil => rfl
      | cons v vs =>
          obtain ⟨_, _, -, -, htitled, -⟩ := (hvs v List.mem_cons_self).exists_titled
          rw [List.flatMap_cons, htitled] at h
          cases h
  | cons w ws ih =>
      intro vs hws hvs h
      obtain ⟨hw, hmore⟩ := List.forall_mem_cons.mp hws
      obtain ⟨c, front, rfl, hc, htitled, hupper, hfront⟩ := hw.exists_titled
      cases vs with
      | nil =>
          rw [List.flatMap_cons, htitled] at h
          cases h
      | cons v vs =>
          obtain ⟨hv, hmore'⟩ := List.forall_mem_cons.mp hvs
          obtain ⟨d, front', rfl, hd, htitled', -, hfront'⟩ := hv.exists_titled
          rw [List.flatMap_cons, List.flatMap_cons, htitled, htitled', List.cons_append,
            List.cons_append] at h
          obtain ⟨hfirst, hrest⟩ := List.cons.inj h
          -- lower case takes the capital back
          have hcd : c = d := by
            rw [← hc, ← Char.toLower_toUpper_eq_toLower, hfirst, Char.toLower_toUpper_eq_toLower,
              hd]
          have hstops := stops_flatMap_titled hmore
          have hstops' := stops_flatMap_titled hmore'
          have hsame : front = front' := by
            rw [← hstops.takeWhile (s := front) (by simpa using hfront), hrest,
              hstops'.takeWhile (by simpa using hfront')]
          have hbehind : ws.flatMap titled = vs.flatMap titled := by
            rw [← hstops.dropWhile (s := front) (by simpa using hfront), hrest,
              hstops'.dropWhile (by simpa using hfront')]
          rw [hcd, hsame, ih hmore hmore' hbehind]

/-- **When plain values are called the same**: when they have the same words but for the case. -/
theorem memberName_eq_iff {m n : String} (hm : IsPlain m.toList) (hn : IsPlain n.toList) :
    memberName m = memberName n ↔ foldedWords m.toList = foldedWords n.toList := by
  rw [← String.toList_inj, memberName_eq hm, memberName_eq hn]
  exact ⟨titled_injective hm.folded hn.folded, fun h => by rw [h]⟩

end SchemaEnums.Naming
