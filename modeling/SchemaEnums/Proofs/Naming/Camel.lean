import SchemaEnums.Proofs.Naming.Case

/-!
# Naming — Camel

The camel case of a name without hyphens, which is how the client spells most models: the name with
its first character in lower case (`camelize_firstLowered`).

Behind the first character every place is inside a word, and there `camelize` touches nothing: a
small letter, a digit or an underscore is passed over, and a capital is raised to itself
(`camelFrom_inWord`).  So a second pass finds the first character lowered already, and two names
with the same camel case differ in the case of that character alone.
-/

namespace SchemaEnums.Naming
open Schema Grammar

variable {c d : Char} {n m s : List Char}

/-! ### Letters and their case -/

/-- Two characters are the same but for their case. -/
def SameLetter (c d : Char) : Prop :=
  d = c ∨ d = c.toLower ∨ d = c.toUpper

/-- A character is its own lower case or its own upper case. -/
theorem toLower_or_toUpper (c : Char) : c.toLower = c ∨ c.toUpper = c := by
  by_cases h : c.isUpper = true
  · exact .inr (toUpper_of_isUpper h)
  · exact .inl (Char.toLower_eq_of_not_isUpper h)

/-- Characters with the same lower case are the same but for their case. -/
theorem toLower_eq_iff : c.toLower = d.toLower ↔ SameLetter c d := by
  constructor
  · intro h
    have hupper : c.toUpper = d.toUpper := by
      rw [← Char.toUpper_toLower_eq_toUpper, h, Char.toUpper_toLower_eq_toUpper]
    rcases toLower_or_toUpper d with hd | hd
    · exact .inr (.inl (by rw [h, hd]))
    · exact .inr (.inr (by rw [hupper, hd]))
  · rintro (rfl | rfl | rfl)
    · rfl
    · exact (Char.toLower_toLower_eq_toLower c).symm
    · exact (Char.toLower_toUpper_eq_toLower c).symm

/-! ### Names without hyphens -/

/-- Word characters, the first of which is no digit. -/
def IsWordName (n : List Char) : Prop :=
  ∃ c s, n = c :: s ∧ isNameStart c = true ∧ ∀ x ∈ s, isWordChar x = true

instance : DecidablePred IsWordName
  | []     => .isFalse fun ⟨_, _, h, _⟩ => nomatch h
  | c :: s => decidable_of_iff (isNameStart c = true ∧ s.all isWordChar = true) (by
      rw [List.all_eq_true]
      exact ⟨fun h => ⟨c, s, rfl, h⟩, fun ⟨_, _, h, hcs⟩ => by cases h; exact hcs⟩)

/-- The text with its first character in lower case. -/
def firstLowered : List Char → List Char
  | []     => []
  | c :: s => c.toLower :: s

/-- The texts are the same but for the case of their first characters. -/
def SameButFirst (n m : List Char) : Prop :=
  ∃ c d s, n = c :: s ∧ m = d :: s ∧ SameLetter c d

theorem isNameStart_toLower (h : isNameStart c = true) : isNameStart c.toLower = true :=
  (recased_toLower c).iff (q := fun x => isNameStart x = true)
    (.inl fun x hx => by rw [isNameStart, hx, Bool.true_or]) |>.mpr h

theorem IsWordName.firstLowered (h : IsWordName n) : IsWordName (firstLowered n) := by
  obtain ⟨c, s, rfl, hc, hs⟩ := h
  exact ⟨c.toLower, s, rfl, isNameStart_toLower hc, hs⟩

theorem firstLowered_idem : firstLowered (firstLowered n) = firstLowered n := by
  cases n with
  | nil => rfl
  | cons c s => exact congrArg (· :: s) (Char.toLower_toLower_eq_toLower c)

/-- Names that are one when their first characters are lowered differ in the case of those alone. -/
theorem firstLowered_eq_iff (hn : n ≠ []) :
    firstLowered n = firstLowered m ↔ SameButFirst n m := by
  constructor
  · intro h
    cases n with
    | nil => exact absurd rfl hn
    | cons c s =>
        cases m with
        | nil => cases h
        | cons d t =>
            obtain ⟨hcd, rfl⟩ := List.cons.inj h
            exact ⟨c, d, s, rfl, rfl, toLower_eq_iff.mp hcd⟩
  · rintro ⟨c, d, s, rfl, rfl, hcd⟩
    exact congrArg (· :: s) (toLower_eq_iff.mpr hcd)

/-! ### Camel case -/

/-- Inside a word camel case changes nothing. -/
theorem camelFrom_inWord (h : ∀ x ∈ s, isWordChar x = true) : camelFrom false true s = s := by
  induction s with
  | nil => rfl
  | cons c s ih =>
      obtain ⟨hc, hs⟩ := List.forall_mem_cons.mp h
      rw [camelFrom_word hc (by simp), if_pos rfl, ih hs]

theorem camelize_of_isWordName {n : String} (h : IsWordName n.toList) :
    (camelize n).toList = firstLowered n.toList := by
  obtain ⟨c, s, hn, hc, hs⟩ := h
  rw [camelize_toList hn hc, camelFrom_inWord hs, hn]
  rfl

/-- **The camel case of a name without hyphens** is the name with its first character in lower
case.  So a second pass changes nothing, and two such names have the same camel case exactly if they
are the same but for the case of their first characters. -/
theorem camelize_firstLowered (n : String) (hn : IsWordName n.toList) :
    (camelize n).toList = firstLowered n.toList ∧ camelize (camelize n) = camelize n ∧
      ∀ m : String, IsWordName m.toList →
        (camelize n = camelize m ↔ SameButFirst n.toList m.toList) := by
  have hcamel := camelize_of_isWordName hn
  refine ⟨hcamel, ?_, fun m hm => ?_⟩
  · have hagain : IsWordName (camelize n).toList := hcamel ▸ hn.firstLowered
    rw [← String.toList_inj, camelize_of_isWordName hagain, hcamel, firstLowered_idem]
  · have hne : n.toList ≠ [] := by
      obtain ⟨c, s, h, -⟩ := hn
      rw [h]
      exact List.cons_ne_nil c s
    rw [← String.toList_inj, hcamel, camelize_of_isWordName hm, firstLowered_eq_iff hne]

/-- Inner capitals, underscores and zeros stay. -/
theorem camelize_firstLowered_inner :
    IsWordName "Ab_0C".toList ∧ IsWordName "ab_0C".toList ∧ IsWordName "_b_0C".toList ∧
      (camelize "Ab_0C").toList = "ab_0C".toList ∧
      camelize "Ab_0C" = camelize "ab_0C" ∧ camelize "Ab_0C" ≠ camelize "_b_0C" := by
  have hn : IsWordName "Ab_0C".toList := by decide
  have hm : IsWordName "ab_0C".toList := by decide
  have hk : IsWordName "_b_0C".toList := by decide
  obtain ⟨hcamel, -, hsame⟩ := camelize_firstLowered "Ab_0C" hn
  refine ⟨hn, hm, hk, hcamel, (hsame _ hm).mpr ⟨'A', 'a', _, rfl, rfl, .inr (.inl rfl)⟩,
    fun h => ?_⟩
  obtain ⟨c, d, s, hc, hd, hcd⟩ := (hsame _ hk).mp h
  obtain ⟨rfl, -⟩ := List.cons.inj hc
  obtain ⟨rfl, -⟩ := List.cons.inj hd
  exact absurd (toLower_eq_iff.mpr hcd) (by decide)

end SchemaEnums.Naming
