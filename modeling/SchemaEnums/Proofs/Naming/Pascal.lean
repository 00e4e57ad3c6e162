import SchemaEnums.Enums.Declaration
import SchemaEnums.Proofs.Naming.Words

/-!
# Naming — Pascal

What comes out of `pascalize`: the words of a text and nothing else but white space, so it is told
from the text when the result is an identifier (`pascalize_by_words`), and there is nothing left to
change in it (`pascalize_idempotent`).
-/

namespace SchemaEnums.Naming
open Text Enums

variable {c : Char} {s : List Char} {inRun : Bool}

/-! ### Identifiers -/

theorem isAlphanum_of_mem_raised {w : List Char} (hw : ∀ c ∈ w, c.isAlphanum = true)
    (hc : c ∈ raised w) : c.isAlphanum = true := by
  cases w with
  | nil => cases hc
  | cons d w =>
      obtain ⟨hd, hw⟩ := List.forall_mem_cons.mp hw
      rcases List.mem_cons.mp hc with rfl | hc
      · exact (recased_toUpper d).isAlphanum_iff.mpr hd
      · exact hw c hc

theorem isAlphanum_of_mem_titled {w : List Char} (hw : ∀ c ∈ w, c.isAlphanum = true)
    (hc : c ∈ titled w) : c.isAlphanum = true := by
  rw [titled_eq] at hc
  refine isAlphanum_of_mem_raised (fun x hx => ?_) hc
  obtain ⟨y, hy, rfl⟩ := List.mem_map.mp hx
  exact (recased_toLower y).isAlphanum_iff.mpr (hw y hy)

/-- What is written of the words is letters and digits. -/
theorem isAlphanum_of_mem_joinedWords (hc : c ∈ joinedWords (material s)) :
    c.isAlphanum = true := by
  have hwords : ∀ w ∈ words (material s), ∀ c ∈ w, c.isAlphanum = true :=
    fun w hw c hc => isAlphanum_of_mem_words hw hc
  rw [joinedWords] at hc
  split at hc
  case h_1 => cases hc
  case h_2 w ws hws =>
    rw [hws] at hwords
    obtain ⟨hw, hws⟩ := List.forall_mem_cons.mp hwords
    rcases List.mem_append.mp hc with hc | hc
    · split at hc
      case isTrue => exact isAlphanum_of_mem_titled hw hc
      case isFalse => exact isAlphanum_of_mem_raised hw hc
    · obtain ⟨v, hv, hc⟩ := List.mem_flatMap.mp hc
      exact isAlphanum_of_mem_titled (hws v hv) hc

/-- The first character written is that of the first word. -/
theorem head?_joinedWords (s : List Char) :
    (joinedWords s).head? = ((words s).head?.bind List.head?).map Char.toUpper := by
  rw [joinedWords]
  cases hws : words s with
  | nil => rfl
  | cons w ws =>
      have hne : w ≠ [] := ne_nil_of_mem_words (hws ▸ List.mem_cons_self)
      obtain ⟨c, w, rfl⟩ := List.exists_cons_of_ne_nil hne
      cases s.head?.any isSeparator <;> rfl

theorem isIdentifierStart_iff (h : c.isAlphanum = true) :
    isIdentifierStart c = true ↔ c.isAlpha = true := by
  have hother : (c == '_') = false ∧ (c == '$') = false := by
    constructor <;> rw [beq_eq_false_iff_ne] <;> rintro rfl <;> exact absurd h (by decide)
  simp [isIdentifierStart, hother]

theorem isIdentifierChar_of_start (h : isIdentifierStart c = true) : isIdentifierChar c = true := by
  simp only [isIdentifierStart, isIdentifierChar, Char.isAlphanum, Bool.or_eq_true] at h ⊢
  tauto

theorem not_isIdentifierChar_of_isBlank (h : isBlank c = true) : isIdentifierChar c = false := by
  by_contra hchar
  rw [Bool.not_eq_false, isIdentifierChar, Bool.or_eq_true, beq_iff_eq] at hchar
  rcases hchar with hword | rfl
  · rw [not_isBlank_of_word hword] at h
    cases h
  · exact absurd h (by decide)

/-- White space is no part of an identifier. -/
theorem isIdentifier_append {front suffix : List Char} (hfront : ∀ c ∈ front, c.isAlphanum = true)
    (hblank : ∀ c ∈ suffix, isBlank c = true) :
    isIdentifier (String.ofList (front ++ suffix)) = true ↔
      (∃ c ∈ front.head?, c.isAlpha = true) ∧ suffix = [] := by
  have hno : ∀ c ∈ suffix, isIdentifierChar c = false :=
    fun c hc => not_isIdentifierChar_of_isBlank (hblank c hc)
  rw [isIdentifier, String.toList_ofList]
  cases front with
  | nil =>
      refine iff_of_false ?_ (by simp)
      cases suffix with
      | nil => simp
      | cons x suffix =>
          have hx : isIdentifierStart x = false := by
            by_contra hstart
            have hchar := isIdentifierChar_of_start (Bool.not_eq_false _ ▸ hstart)
            rw [hno x List.mem_cons_self] at hchar
            cases hchar
          simp [hx]
  | cons c front =>
      obtain ⟨hc, hfront⟩ := List.forall_mem_cons.mp hfront
      have hall : front.all isIdentifierChar = true :=
        List.all_eq_true.mpr fun x hx => by rw [isIdentifierChar, hfront x hx]; rfl
      have hsuffix : suffix.all isIdentifierChar = true ↔ suffix = [] := by
        cases suffix with
        | nil => simp
        | cons x suffix => simp [hno x List.mem_cons_self]
      simp only [List.cons_append, List.all_append, hall, Bool.true_and, Bool.and_eq_true,
        isIdentifierStart_iff hc, hsuffix, List.head?_cons, Option.mem_some_iff, exists_eq_left']

theorem isIdentifier_pascalize_iff (s : String) : isIdentifier (pascalize s) = true ↔
    (∃ c w ws, words (material s.toList) = (c :: w) :: ws ∧ c.isAlpha = true) ∧
      ¬ EndsInSeparator (material s.toList) := by
  obtain ⟨suffix, htext, ⟨hblank, -⟩, hends⟩ := pascalize_eq s
  rw [← String.ofList_toList (s := pascalize s), htext,
    isIdentifier_append (fun c hc => isAlphanum_of_mem_joinedWords hc) hblank, ← hends, not_ne_iff,
    head?_joinedWords]
  refine and_congr_left fun _ => ?_
  cases hws : words (material s.toList) with
  | nil => simp
  | cons w ws =>
      obtain ⟨c, w, rfl⟩ := List.exists_cons_of_ne_nil
        (ne_nil_of_mem_words (hws ▸ List.mem_cons_self))
      simp

/-- **Pascal case by words.**  The words that count in a text are joined, each with a capital and
small letters but for one that stands at the very beginning, which only gets a capital; behind them
white space is left exactly if a separator stands at the end.  So the result is an identifier
exactly if there is a word, the first one starts with a letter, and no separator stands at the
end. -/
theorem pascalize_by_words (s : String) :
    (∃ suffix, (pascalize s).toList = joinedWords (material s.toList) ++ suffix ∧
        (∀ c ∈ suffix, isBlank c = true) ∧ (suffix ≠ [] ↔ EndsInSeparator (material s.toList))) ∧
      (isIdentifier (pascalize s) = true ↔
        (∃ c w ws, words (material s.toList) = (c :: w) :: ws ∧ c.isAlpha = true) ∧
          ¬ EndsInSeparator (material s.toList)) := by
  obtain ⟨suffix, htext, hsettled, hends⟩ := pascalize_eq s
  exact ⟨⟨suffix, htext, hsettled.1, hends⟩, isIdentifier_pascalize_iff s⟩

example : pascalize "in_PROGRESS (a-b.C) \t" = "InProgressABc\t" := by decide +kernel

/-! ### Pascal case again -/

theorem spaced_of_no_dash (h : ∀ c ∈ s, isDash c = false) : spaced inRun s = s := by
  induction s generalizing inRun with
  | nil => rfl
  | cons c s ih =>
      obtain ⟨hc, hs⟩ := List.forall_mem_cons.mp h
      rw [spaced, hc, if_neg (by simp), ih hs]

theorem not_isDash_of_isBlank (h : isBlank c = true) : isDash c = false := by
  by_contra hdash
  rw [Bool.not_eq_false] at hdash
  rcases (by simpa [isDash] using hdash : c = '-' ∨ c = '_') with rfl | rfl <;>
    exact absurd h (by decide)

/-- In the first word nothing is changed. -/
theorem joined_first_append {front : List Char} (h : ∀ c ∈ front, isBlank c = false) :
    joined .first (front ++ s) = front ++ joined .first s := by
  induction front with
  | nil => rfl
  | cons c front ih =>
      obtain ⟨hc, hfront⟩ := List.forall_mem_cons.mp h
      rw [List.cons_append, joined, hc, if_neg (by simp), ih hfront, List.cons_append]

theorem joined_between_blank {run : List Char} (h : ∀ c ∈ s, isBlank c = true) :
    joined (.between run) s = trailing (run ++ s) := by
  induction s generalizing run with
  | nil => rw [joined, List.append_nil]
  | cons c s ih =>
      obtain ⟨hc, hs⟩ := List.forall_mem_cons.mp h
      rw [joined, if_pos hc, ih hs, List.append_assoc, List.singleton_append]

theorem Settled.joined_first (h : Settled s) : joined .first s = s := by
  obtain ⟨hblank, htrailing⟩ := h
  cases s with
  | nil => rfl
  | cons c s =>
      obtain ⟨hc, hs⟩ := List.forall_mem_cons.mp hblank
      rw [joined, if_pos hc, joined_between_blank hs, List.singleton_append, htrailing]

/-- **Pascal case of a name in Pascal case is the name.** -/
theorem pascalize_idempotent (s : String) : pascalize (pascalize s) = pascalize s := by
  obtain ⟨suffix, htext, hsettled, -⟩ := pascalize_eq s
  have hfront : ∀ c ∈ joinedWords (material s.toList), isSeparator c = false :=
    fun c hc => not_isSeparator_of_isAlphanum (isAlphanum_of_mem_joinedWords hc)
  have hdash : ∀ c ∈ (pascalize s).toList, isDash c = false := by
    rw [htext]
    exact List.forall_mem_append.mpr ⟨fun c hc => (Bool.or_eq_false_iff.mp (hfront c hc)).1,
      fun c hc => not_isDash_of_isBlank (hsettled.1 c hc)⟩
  have hcleaned : cleaned (pascalize s).toList = (pascalize s).toList := by
    rw [cleaned, List.filter_eq_self, htext]
    refine List.forall_mem_append.mpr ⟨fun c hc => ?_, fun c hc => ?_⟩
    · rw [isWordChar_of_isAlphanum (isAlphanum_of_mem_joinedWords hc), Bool.true_or]
    · rw [hsettled.1 c hc, Bool.or_true]
  have hjoined : joined .first (pascalize s).toList = (pascalize s).toList := by
    rw [htext, joined_first_append fun c hc => (Bool.or_eq_false_iff.mp (hfront c hc)).2,
      hsettled.joined_first]
  rw [pascalize, spaced_of_no_dash hdash, hcleaned, hjoined, pascalize, String.toList_ofList,
    capitalized_capitalized]

end SchemaEnums.Naming
