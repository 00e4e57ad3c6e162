import Mathlib.Data.List.Induction
import Mathlib.Data.List.Nodup
import SchemaEnums.Enums.Declaration
import SchemaEnums.Proofs.Outcome

/-!
# Enums — Members

What becomes of a list of values.

Either every value has an identifier of its own (`Declarable`), and the declaration has a member for
each of them, or there is a first value for which that fails, and the declaration is refused because
of it (`Blamed`); one of the two holds of every list (`declarable_or_blamed`), so each says exactly
when a declaration is made or refused (`Declaration.make_eq_ok_iff`,
`Declaration.make_eq_error_iff`).

The scan keeps the members it has made.  While it goes on these are the members of the values before
it, so `membersFrom` is only ever looked at behind such values.
-/

namespace SchemaEnums.Enums

variable {name : String} {identifier : String → String} {values : List String} {clash : Clash}

/-! ### Good values and the first bad one -/

/-- A member for each value, in their order. -/
def membersOf (identifier : String → String) (values : List String) : List Member :=
  values.map fun v => ⟨identifier v, v⟩

/-- What the values are called are identifiers, and no two of them are called the same. -/
structure Declarable (identifier : String → String) (values : List String) : Prop where
  valid    : ∀ v ∈ values, isIdentifier (identifier v) = true
  distinct : (values.map identifier).Nodup

/-- The first value that stands in the way of a declaration, and why.  The values before it are
declarable, so in the second case there is only one of them that is called the same. -/
inductive Blamed (name : String) (identifier : String → String) (values : List String) :
    Clash → Prop where
  /-- What the value is called is no identifier. -/
  | invalid {before : List String} {value : String} {after : List String}
      (split : values = before ++ value :: after) (declarable : Declarable identifier before)
      (invalid : isIdentifier (identifier value) = false) :
      Blamed name identifier values (.invalid name value (identifier value))
  /-- A value before it is called the same. -/
  | duplicate {before : List String} {first value : String} {after : List String}
      (split : values = before ++ value :: after) (declarable : Declarable identifier before)
      (earlier : first ∈ before) (same : identifier first = identifier value) :
      Blamed name identifier values (.duplicate name (identifier value) first value)

theorem Declarable.nil : Declarable identifier [] :=
  ⟨fun _ h => (nomatch h), List.nodup_nil⟩

theorem Declarable.concat {value : String} (h : Declarable identifier values)
    (hvalid : isIdentifier (identifier value) = true)
    (hnew : ∀ v ∈ values, identifier v ≠ identifier value) :
    Declarable identifier (values ++ [value]) := by
  refine ⟨List.forall_mem_append.mpr ⟨h.valid, List.forall_mem_singleton.mpr hvalid⟩, ?_⟩
  rw [List.map_append, List.map_singleton, ← List.concat_eq_append]
  refine h.distinct.concat fun hmem => ?_
  obtain ⟨v, hv, hsame⟩ := List.mem_map.mp hmem
  exact hnew v hv hsame

theorem Declarable.of_append {after : List String} (h : Declarable identifier (values ++ after)) :
    Declarable identifier values :=
  ⟨fun v hv => h.valid v (List.mem_append_left _ hv),
    (List.map_append ▸ h.distinct).of_append_left⟩

/-- Whatever follows, the first bad value stays the first. -/
theorem Blamed.append (h : Blamed name identifier values clash) (after : List String) :
    Blamed name identifier (values ++ after) clash := by
  cases h with
  | invalid hsplit hbefore hinvalid =>
      exact .invalid (by rw [hsplit, List.append_assoc, List.cons_append]) hbefore hinvalid
  | duplicate hsplit hbefore hearlier hsame =>
      exact .duplicate (by rw [hsplit, List.append_assoc, List.cons_append]) hbefore hearlier hsame

/-- Every list of values can be declared or has a first value that stands in the way. -/
theorem declarable_or_blamed (name : String) (identifier : String → String) (values : List String) :
    Declarable identifier values ∨ ∃ clash, Blamed name identifier values clash := by
  induction values using List.reverseRecOn with
  | nil => exact .inl .nil
  | append_singleton values value ih =>
      rcases ih with h | ⟨clash, h⟩
      · by_cases hvalid : isIdentifier (identifier value) = true
        · by_cases hsame : ∃ v ∈ values, identifier v = identifier value
          · obtain ⟨first, hearlier, hsame⟩ := hsame
            exact .inr ⟨_, .duplicate rfl h hearlier hsame⟩
          · exact .inl (h.concat hvalid fun v hv heq => hsame ⟨v, hv, heq⟩)
        · exact .inr ⟨_, .invalid rfl h (by simpa using hvalid)⟩
      · exact .inr ⟨clash, h.append [value]⟩

/-! ### The scan -/

section Scan

variable {before : List String} {first value : String}

/-- Among the members of declarable values, the one that is called in a certain way is found. -/
theorem find?_membersOf (h : Declarable identifier before) (hearlier : first ∈ before) :
    (membersOf identifier before).reverse.find? (·.identifier == identifier first) =
      some ⟨identifier first, first⟩ := by
  cases hfind : (membersOf identifier before).reverse.find?
      (·.identifier == identifier first) with
  | none =>
      rw [List.find?_eq_none] at hfind
      have hmem : (⟨identifier first, first⟩ : Member) ∈ (membersOf identifier before).reverse :=
        List.mem_reverse.mpr (List.mem_map_of_mem hearlier)
      exact absurd (beq_self_eq_true _) (hfind _ hmem)
  | some m =>
      obtain ⟨v, hv, rfl⟩ := List.mem_map.mp (List.mem_reverse.mp (List.mem_of_find?_eq_some hfind))
      have hsame : identifier v = identifier first := by simpa using List.find?_some hfind
      rw [List.inj_on_of_nodup_map h.distinct hv hearlier hsame]

theorem membersFrom_invalid (hinvalid : isIdentifier (identifier value) = false)
    (seen : List Member) (rest : List String) :
    membersFrom name identifier seen (value :: rest) =
      .error (.invalid name value (identifier value)) := by
  simp only [membersFrom, hinvalid, Bool.false_eq_true, if_false]

theorem membersFrom_duplicate (h : Declarable identifier before) (hearlier : first ∈ before)
    (hsame : identifier first = identifier value) (rest : List String) :
    membersFrom name identifier (membersOf identifier before).reverse (value :: rest) =
      .error (.duplicate name (identifier value) first value) := by
  have hvalid := h.valid first hearlier
  have hfind := find?_membersOf h hearlier
  rw [hsame] at hvalid hfind
  simp only [membersFrom, hvalid, if_true, hfind]

theorem membersFrom_concat (h : Declarable identifier (before ++ [value])) (rest : List String) :
    membersFrom name identifier (membersOf identifier before).reverse (value :: rest) =
      (membersFrom name identifier (membersOf identifier (before ++ [value])).reverse rest).map
        (⟨identifier value, value⟩ :: ·) := by
  have hvalid := h.valid value (by simp)
  have hfind : (membersOf identifier before).reverse.find?
      (·.identifier == identifier value) = none := by
    rw [List.find?_eq_none]
    intro m hm
    obtain ⟨v, hv, rfl⟩ := List.mem_map.mp (List.mem_reverse.mp hm)
    have hdistinct := h.distinct
    rw [List.map_append, List.nodup_append] at hdistinct
    simpa using hdistinct.2.2 _ (List.mem_map_of_mem hv) _ (by simp)
  have hseen : (membersOf identifier (before ++ [value])).reverse =
      ⟨identifier value, value⟩ :: (membersOf identifier before).reverse := by
    simp [membersOf]
  simp only [membersFrom, hvalid, if_true, hfind, hseen]

/-- The scan passes declarable values and keeps a member for each. -/
theorem membersFrom_append : ∀ {values before : List String},
    Declarable identifier (before ++ values) → ∀ rest,
      membersFrom name identifier (membersOf identifier before).reverse (values ++ rest) =
        (membersFrom name identifier (membersOf identifier (before ++ values)).reverse rest).map
          (membersOf identifier values ++ ·)
  | [],              before, _, rest => by
      rw [List.nil_append, List.append_nil]
      cases membersFrom name identifier (membersOf identifier before).reverse rest <;> rfl
  | value :: values, before, h, rest => by
      rw [List.append_cons] at h ⊢
      rw [List.cons_append, membersFrom_concat h.of_append, membersFrom_append h]
      cases membersFrom name identifier _ rest <;> rfl

/-- Behind declarable values the scan goes on with their members. -/
theorem membersFrom_behind (h : Declarable identifier before) (rest : List String) :
    membersFrom name identifier [] (before ++ rest) =
      (membersFrom name identifier (membersOf identifier before).reverse rest).map
        (membersOf identifier before ++ ·) :=
  @membersFrom_append name identifier before [] h rest

end Scan

/-! ### Declarations -/

theorem Declarable.make (h : Declarable identifier values) (name : String) :
    Declaration.make name identifier values = .ok ⟨name, membersOf identifier values⟩ := by
  rw [Declaration.make, ← List.append_nil values, membersFrom_behind h]
  simp only [membersFrom, Except.map, List.append_nil]

theorem Blamed.make (h : Blamed name identifier values clash) :
    Declaration.make name identifier values = .error clash := by
  rw [Declaration.make, map_eq_error_iff]
  cases h with
  | invalid hsplit hbefore hinvalid =>
      rw [hsplit, membersFrom_behind hbefore, membersFrom_invalid hinvalid]
      rfl
  | duplicate hsplit hbefore hearlier hsame =>
      rw [hsplit, membersFrom_behind hbefore, membersFrom_duplicate hbefore hearlier hsame]
      rfl

/-- **When a declaration is made**, and what it is. -/
theorem Declaration.make_eq_ok_iff {d : Declaration} :
    Declaration.make name identifier values = .ok d ↔
      Declarable identifier values ∧ d = ⟨name, membersOf identifier values⟩ := by
  constructor
  · intro hmake
    rcases declarable_or_blamed name identifier values with h | ⟨clash, h⟩
    · rw [h.make] at hmake
      exact ⟨h, (Except.ok.inj hmake).symm⟩
    · rw [h.make] at hmake
      cases hmake
  · rintro ⟨h, rfl⟩
    exact h.make name

theorem Declaration.make_eq {d : Declaration}
    (h : Declaration.make name identifier values = .ok d) :
    d = ⟨name, membersOf identifier values⟩ :=
  (Declaration.make_eq_ok_iff.mp h).2

/-- **When a declaration is refused**, and because of what. -/
theorem Declaration.make_eq_error_iff :
    Declaration.make name identifier values = .error clash ↔
      Blamed name identifier values clash := by
  constructor
  · intro hmake
    rcases declarable_or_blamed name identifier values with h | ⟨clash', h⟩
    · rw [h.make] at hmake
      cases hmake
    · rw [h.make] at hmake
      exact Except.error.inj hmake ▸ h
  · exact Blamed.make

/-- The declaration's members were made from values, be it for another enum. -/
def Declaration.Made (d : Declaration) : Prop :=
  ∃ name identifier values, Declaration.make name identifier values = .ok ⟨name, d.members⟩

theorem Declaration.Made.members_eq {d : Declaration} (h : d.Made) :
    ∃ identifier values,
      Declarable identifier values ∧ d.members = membersOf identifier values := by
  obtain ⟨name, identifier, values, hmake⟩ := h
  obtain ⟨hvalues, hd⟩ := Declaration.make_eq_ok_iff.mp hmake
  exact ⟨identifier, values, hvalues, congrArg Declaration.members hd⟩

theorem Declaration.Made.distinct {d : Declaration} (h : d.Made) :
    (d.members.map (·.identifier)).Nodup := by
  obtain ⟨identifier, values, hvalues, hmembers⟩ := h.members_eq
  rw [hmembers, membersOf, List.map_map]
  exact hvalues.distinct

end SchemaEnums.Enums
