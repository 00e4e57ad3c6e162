import Mathlib
import SchemaEnums.Naming.Case
import SchemaEnums.Proofs.Schema.Print

/-!
# Naming — Case

What camel case and Pascal case do to the names of a schema, and when a name has the same Pascal
case with camel case before it and without (`pascalize_camelize_eq_iff`).

A name has no white space, so `camelize` lowers its first letter, raises what stands behind a
hyphen, and takes a zero out of such a place; and `pascalize` goes through the segments of the name
that its dashes separate (`Segment.joined`), where what stands behind a dash is raised in any case.
So all that camel case changes Pascal case undoes, but for the zeros: `pascalize` keeps all it is
given (`count_pascalize`), and one that was taken out is missing.
-/

namespace SchemaEnums.Naming
open Text Schema Grammar

variable {c : Char} {s : List Char} {atStart inWord : Bool}

/-! ### Characters of names -/

theorem isNameChar_of_isWordChar (h : isWordChar c = true) : isNameChar c = true := by
  rw [isNameChar, show (c.isAlphanum || c == '_') = true from h, Bool.true_or]

theorem isWordChar_of_isNameStart (h : isNameStart c = true) : isWordChar c = true := by
  simp only [isNameStart, isWordChar, Char.isAlphanum, Bool.or_eq_true] at h ⊢
  tauto

/-- A character of a name is a word character or the hyphen. -/
theorem isNameChar_cases (h : isNameChar c = true) : c = '-' ∨ isWordChar c = true := by
  simp only [isNameChar, isWordChar, Bool.or_eq_true, beq_iff_eq] at h ⊢
  tauto

theorem not_isBlank_of_word (h : isWordChar c = true) : isBlank c = false := by
  by_contra hblank
  have htoNat := isBlank_toNat (Bool.not_eq_false _ ▸ hblank)
  simp only [isWordChar, Char.isAlphanum, Bool.or_eq_true, isAlpha_iff_toNat,
    Char.isDigit_iff_toNat, beq_iff_eq, ← Char.toNat_inj, Char.reduceToNat] at h
  omega

/-- A change of case keeps a character, or makes a letter into a letter. -/
def Recased (c d : Char) : Prop :=
  d = c ∨ c.isAlpha = true ∧ d.isAlpha = true

theorem recased_toUpper (c : Char) : Recased c c.toUpper := by
  by_cases h : c.isLower = true
  · exact .inr ⟨by simp [Char.isAlpha, h], by simp [Char.isAlpha, h]⟩
  · exact .inl (Char.toUpper_eq_of_not_isLower h)

theorem recased_toLower (c : Char) : Recased c c.toLower := by
  by_cases h : c.isUpper = true
  · exact .inr ⟨by simp [Char.isAlpha, h], by simp [Char.isAlpha, h]⟩
  · exact .inl (Char.toLower_eq_of_not_isUpper h)

/-- A class that has all letters, or none, does not see the case. -/
theorem Recased.iff {d : Char} (h : Recased c d) {q : Char → Prop}
    (hq : (∀ x : Char, x.isAlpha = true → q x) ∨ ∀ x : Char, x.isAlpha = true → ¬ q x) :
    q d ↔ q c := by
  rcases h with rfl | ⟨hc, hd⟩
  · rfl
  · rcases hq with hq | hq
    · exact iff_of_true (hq d hd) (hq c hc)
    · exact iff_of_false (hq d hd) (hq c hc)

theorem Recased.isWordChar_iff {d : Char} (h : Recased c d) :
    isWordChar d = true ↔ isWordChar c = true :=
  h.iff (q := fun x => isWordChar x = true) <| .inl fun x hx => by
    rw [isWordChar, Char.isAlphanum, hx, Bool.true_or, Bool.true_or]

theorem not_isAlpha_of_isDash (h : isDash c = true) : c.isAlpha = false := by
  rcases (by simpa [isDash] using h : c = '-' ∨ c = '_') with rfl | rfl <;> rfl

theorem Recased.isDash_eq {d : Char} (h : Recased c d) : isDash d = isDash c :=
  Bool.eq_iff_iff.mpr <| h.iff (q := fun x => isDash x = true) <| .inr fun x hx hdash => by
    rw [not_isAlpha_of_isDash hdash] at hx
    exact absurd hx (by decide)

theorem Recased.eq_of_isDash {d : Char} (h : Recased c d) (hc : isDash c = true) : d = c :=
  h.resolve_right fun halpha => by simp [not_isAlpha_of_isDash hc] at halpha

theorem Recased.eq_zero_iff {d : Char} (h : Recased c d) : d = '0' ↔ c = '0' :=
  h.iff (q := fun x => x = '0') <| .inr fun x hx h0 => by
    rw [h0] at hx
    exact absurd hx (by decide)

theorem toUpper_of_isUpper (hc : c.isUpper = true) : c.toUpper = c :=
  Char.toUpper_eq_of_not_isLower (Char.not_isLower_of_isUpper hc)

/-! ### Camel case -/

theorem camelFrom_hyphen :
    camelFrom atStart inWord ('-' :: s) = '-' :: camelFrom false false s := rfl

/-- A zero that stands behind no word character is taken out. -/
theorem camelFrom_zero : camelFrom atStart false ('0' :: s) = camelFrom false true s := rfl

theorem camelFrom_first (h : isWordChar c = true) (h0 : c ≠ '0') :
    camelFrom true false (c :: s) = c.toLower :: camelFrom false true s := by
  rw [camelFrom, not_isBlank_of_word h, h]
  simp [h0]

/-- A word character is raised unless it stands behind one. -/
theorem camelFrom_word (h : isWordChar c = true) (h0 : inWord = false → c ≠ '0') :
    camelFrom false inWord (c :: s) =
      (if inWord then c else c.toUpper) :: camelFrom false true s := by
  rw [camelFrom, not_isBlank_of_word h, h]
  cases inWord with
  | false => simp [h0 rfl]
  | true =>
      by_cases hc : c.isUpper = true
      · have hzero : c ≠ '0' := by
          rintro rfl
          exact absurd hc (by decide)
        simp [hc, hzero, toUpper_of_isUpper hc]
      · simp [hc]

/-- Camel case makes a name's characters into such ones. -/
theorem isNameChar_camelFrom (h : ∀ x ∈ s, isNameChar x = true) :
    ∀ x ∈ camelFrom false inWord s, isNameChar x = true := by
  induction s generalizing inWord with
  | nil => simp [camelFrom]
  | cons c s ih =>
      obtain ⟨hc, hs⟩ := List.forall_mem_cons.mp h
      clear h
      rcases isNameChar_cases hc with rfl | hword
      · rw [camelFrom_hyphen]
        exact List.forall_mem_cons.mpr ⟨hc, ih hs⟩
      · by_cases h0 : inWord = false ∧ c = '0'
        · obtain ⟨rfl, rfl⟩ := h0
          exact ih hs
        · rw [camelFrom_word hword (by simpa using h0)]
          refine List.forall_mem_cons.mpr ⟨?_, ih hs⟩
          split
          case isTrue => exact hc
          case isFalse =>
              exact isNameChar_of_isWordChar ((recased_toUpper c).isWordChar_iff.mpr hword)

/-! ### Pascal case -/

/-- Where in a name the next character stands: in its first segment, behind dashes, or in a later
segment. -/
inductive Segment where
  | first
  | between
  | later

variable {p : Segment}

/-- The state of `joined` there.  Dashes have become one space. -/
def Segment.place : Segment → Place
  | first   => .first
  | between => .between [' ']
  | later   => .later

/-- The state of `spaced` there. -/
def Segment.inRun : Segment → Bool
  | between => true
  | _       => false

/-- What `pascalize` makes of the rest of a name, the capital at the front apart. -/
def Segment.joined (p : Segment) (s : List Char) : List Char :=
  Naming.joined p.place (cleaned (spaced p.inRun s))

/-- A word character as it is written there. -/
def Segment.write : Segment → Char → Char
  | first,   c => c
  | between, c => c.toUpper
  | later,   c => c.toLower

/-- Where the next character stands after a word character. -/
def Segment.next : Segment → Segment
  | first => first
  | _     => later

/-- Dashes end a segment. -/
theorem Segment.joined_dash (h : isDash c = true) : p.joined (c :: s) = between.joined s := by
  cases p <;> simp [joined, place, inRun, spaced, h, cleaned, isBlank, Naming.joined]

theorem Segment.joined_word (h : isWordChar c = true) (hc : isDash c = false) :
    p.joined (c :: s) = p.write c :: p.next.joined s := by
  have hblank := not_isBlank_of_word h
  cases p <;>
    simp [joined, place, inRun, spaced, hc, cleaned, h, Naming.joined, hblank, write, next]

theorem Segment.recased_write (p : Segment) (c : Char) : Recased c (p.write c) := by
  cases p with
  | first => exact .inl rfl
  | between => exact recased_toUpper c
  | later => exact recased_toLower c

theorem pascalize_toList (n : String) :
    (pascalize n).toList = capitalized (Segment.first.joined n.toList) :=
  String.toList_ofList

/-! ### Zeros -/

theorem count_zero_cons {x : Char} {t : List Char} (hx : Recased c x)
    (ht : t.count '0' = s.count '0') : (x :: t).count '0' = (c :: s).count '0' := by
  simp only [List.count_cons, beq_iff_eq, hx.eq_zero_iff, ht]

theorem Segment.count_joined (h : ∀ x ∈ s, isNameChar x = true) :
    (p.joined s).count '0' = s.count '0' := by
  induction s generalizing p with
  | nil => cases p <;> rfl
  | cons c s ih =>
      obtain ⟨hc, hs⟩ := List.forall_mem_cons.mp h
      by_cases hdash : isDash c = true
      · have h0 : c ≠ '0' := by
          rintro rfl
          exact absurd hdash (by decide)
        rw [joined_dash hdash, ih hs, List.count_cons_of_ne h0]
      · rw [Bool.not_eq_true] at hdash
        have hword : isWordChar c = true :=
          (isNameChar_cases hc).resolve_left (by rintro rfl; exact absurd hdash (by decide))
        rw [joined_word hword hdash]
        exact count_zero_cons (p.recased_write c) (ih hs)

theorem count_capitalized : (capitalized s).count '0' = s.count '0' := by
  induction s with
  | nil => rfl
  | cons c s ih =>
      rw [capitalized]
      split
      case isTrue => exact count_zero_cons (recased_toUpper c) rfl
      case isFalse => exact count_zero_cons (.inl rfl) ih

/-- **Pascal case keeps the zeros of a name.** -/
theorem count_pascalize {n : String} (h : ∀ x ∈ n.toList, isNameChar x = true) :
    (pascalize n).toList.count '0' = n.toList.count '0' := by
  rw [pascalize_toList, count_capitalized, Segment.count_joined h]

/-- How many zeros camel case takes out of the rest of a name. -/
def zerosTaken (inWord : Bool) : List Char → Nat
  | []     => 0
  | c :: s => (if inWord = false ∧ c = '0' then 1 else 0) + zerosTaken (isWordChar c) s

theorem count_camelFrom (h : ∀ x ∈ s, isNameChar x = true) :
    (camelFrom false inWord s).count '0' + zerosTaken inWord s = s.count '0' := by
  induction s generalizing inWord with
  | nil => rfl
  | cons c s ih =>
      obtain ⟨hc, hs⟩ := List.forall_mem_cons.mp h
      clear h
      rw [zerosTaken]
      rcases isNameChar_cases hc with rfl | hword
      · rw [camelFrom_hyphen, List.count_cons_of_ne (by decide), List.count_cons_of_ne (by decide),
          if_neg (by simp), Nat.zero_add]
        exact ih hs
      · rw [hword]
        by_cases h0 : inWord = false ∧ c = '0'
        · obtain ⟨rfl, rfl⟩ := h0
          rw [camelFrom_zero, if_pos ⟨rfl, rfl⟩, List.count_cons_self, ← @ih true hs]
          omega
        · have hwritten : (if inWord then c else c.toUpper) = '0' ↔ c = '0' := by
            split
            case isTrue => rfl
            case isFalse => exact (recased_toUpper c).eq_zero_iff
          rw [camelFrom_word hword (by simpa using h0), if_neg h0, Nat.zero_add, List.count_cons,
            List.count_cons, ← @ih true hs]
          simp only [beq_iff_eq, hwritten]
          omega

/-- Zeros are taken out exactly where they stand behind a hyphen. -/
theorem zerosTaken_eq_zero_iff (h : ∀ x ∈ s, isNameChar x = true) :
    zerosTaken inWord s = 0 ↔
      ¬ ['-', '0'] <:+: s ∧ (inWord = false → s.head? ≠ some '0') := by
  induction s generalizing inWord with
  | nil => simp [zerosTaken]
  | cons c s ih =>
      obtain ⟨hc, hs⟩ := List.forall_mem_cons.mp h
      have hhyphen : isWordChar c = false ↔ c = '-' := by
        constructor
        · exact fun hw => (isNameChar_cases hc).resolve_right (by simp [hw])
        · rintro rfl
          rfl
      have hprefix : ['-', '0'] <+: c :: s ↔ c = '-' ∧ s.head? = some '0' := by
        cases s <;> simp [List.cons_prefix_cons, eq_comm]
      rw [zerosTaken, Nat.add_eq_zero_iff, ih hs, hhyphen, List.infix_cons_iff, hprefix]
      simp only [ite_eq_right_iff, Nat.one_ne_zero, List.head?_cons, ne_eq, Option.some.injEq]
      tauto

/-! ### Pascal case after camel case -/

/-- Where camel case takes no zero out, Pascal case undoes all that it does behind the first
character. -/
theorem Segment.joined_camelFrom (h : ∀ x ∈ s, isNameChar x = true) (h0 : zerosTaken inWord s = 0)
    (hp : inWord = false → p = between) : p.joined (camelFrom false inWord s) = p.joined s := by
  induction s generalizing p inWord with
  | nil => rfl
  | cons c s ih =>
      obtain ⟨hc, hs⟩ := List.forall_mem_cons.mp h
      obtain ⟨hzero, hrest⟩ := Nat.add_eq_zero_iff.mp h0
      clear h h0
      -- a hyphen ends the segment in both; what stands behind it is raised by both
      rcases isNameChar_cases hc with rfl | hword
      · rw [camelFrom_hyphen, joined_dash rfl, joined_dash rfl]
        exact ih hs hrest fun _ => rfl
      · rw [hword] at hrest
        rw [camelFrom_word hword (by simpa using hzero)]
        by_cases hdash : isDash c = true
        · rw [(recased_toUpper c).eq_of_isDash hdash, ite_self, joined_dash hdash, joined_dash hdash]
          exact ih hs hrest (by simp)
        · rw [Bool.not_eq_true] at hdash
          rw [joined_word hword hdash]
          cases inWord with
          | true =>
              rw [if_pos rfl, joined_word hword hdash]
              exact congrArg _ (ih hs hrest (by simp))
          | false =>
              obtain rfl := hp rfl
              have hraised := recased_toUpper c
              rw [if_neg (by simp), joined_word (hraised.isWordChar_iff.mpr hword)
                (hraised.isDash_eq.trans hdash), write, write, Char.toUpper_toUpper_eq_toUpper]
              exact congrArg _ (ih hs hrest (by simp))

/-- Camel case lowers the first character of a name. -/
theorem camelize_toList {n : String} (hn : n.toList = c :: s) (hc : isNameStart c = true) :
    (camelize n).toList = c.toLower :: camelFrom false true s := by
  have h0 : c ≠ '0' := by
    rintro rfl
    exact absurd hc (by decide)
  rw [camelize, String.toList_ofList, hn, camelFrom_first (isWordChar_of_isNameStart hc) h0]

/-- Pascal case does not see the case of the first character. -/
theorem capitalized_joined_toLower {t : List Char} (hc : isWordChar c = true)
    (hst : ∀ p : Segment, p.joined t = p.joined s) :
    capitalized (Segment.first.joined (c.toLower :: t)) =
      capitalized (Segment.first.joined (c :: s)) := by
  have hlowered := recased_toLower c
  by_cases hdash : isDash c = true
  · rw [hlowered.eq_of_isDash hdash, Segment.joined_dash hdash, Segment.joined_dash hdash, hst]
  · rw [Bool.not_eq_true] at hdash
    have hword := hlowered.isWordChar_iff.mpr hc
    rw [Segment.joined_word hc hdash, Segment.joined_word hword (hlowered.isDash_eq.trans hdash),
      hst, Segment.write, Segment.write, capitalized, capitalized, if_pos hc, if_pos hword,
      Char.toUpper_toLower_eq_toUpper]

/-- **Pascal case undoes camel case but for zeros behind hyphens.**  Those it cannot bring back. -/
theorem pascalize_camelize_eq_iff {n : String} (h : IsName n.toList) :
    pascalize (camelize n) = pascalize n ↔ ¬ ['-', '0'] <:+: n.toList := by
  have hall := h.all
  obtain ⟨c, s, hn, hc, hs⟩ := h
  have hword := isWordChar_of_isNameStart hc
  have hcamel := camelize_toList hn hc
  have hzeros : zerosTaken true s = 0 ↔ ¬ ['-', '0'] <:+: n.toList := by
    have hname := @zerosTaken_eq_zero_iff _ true hall
    rw [hn, zerosTaken, hword, if_neg (by simp), Nat.zero_add] at hname
    rw [hname, hn]
    simp
  rw [← hzeros]
  constructor
  · -- zeros are counted: Pascal case keeps them all, and camel case has taken some out
    intro heq
    have hcamelName : ∀ x ∈ (camelize n).toList, isNameChar x = true := by
      rw [hcamel]
      exact List.forall_mem_cons.mpr
        ⟨isNameChar_of_isWordChar ((recased_toLower c).isWordChar_iff.mpr hword),
          isNameChar_camelFrom hs⟩
    have hcount : (camelize n).toList.count '0' = n.toList.count '0' := by
      rw [← count_pascalize hcamelName, heq, count_pascalize hall]
    have htaken : (camelFrom false true s).count '0' + zerosTaken true s = s.count '0' :=
      count_camelFrom hs
    rw [hcamel, hn, List.count_cons, List.count_cons] at hcount
    simp only [beq_iff_eq, (recased_toLower c).eq_zero_iff] at hcount
    omega
  · intro h0
    rw [← String.toList_inj, pascalize_toList, pascalize_toList, hcamel, hn]
    exact capitalized_joined_toLower hword fun p => Segment.joined_camelFrom hs h0 (by simp)

end SchemaEnums.Naming
