import SchemaEnums.Proofs.Enums.Requests
import SchemaEnums.Proofs.Enums.Table
import SchemaEnums.Proofs.Schema.RoundTrip

/-!
# Enums — Identifiers

Which names of a generated file are identifiers.  A declaration is only made of values that are
called by identifiers, so all members are (`Declaration.Made.membersValid`); the name of a
declaration is not checked.  Three names are fixed, and the name made for a schema's enum is an
identifier exactly if the enum's name, which the grammar lets contain hyphens, contains none
(`declared_names_valid_iff`).
-/

namespace SchemaEnums.Enums
open Schema Text

/-! ### Members -/

/-- The identifiers of all members are ones. -/
def Declaration.MembersValid (d : Declaration) : Prop :=
  ∀ m ∈ d.members, isIdentifier m.identifier = true

theorem Declaration.Made.membersValid {d : Declaration} (h : d.Made) : d.MembersValid := by
  obtain ⟨identifier, values, hvalues, hmembers⟩ := h.members_eq
  rw [Declaration.MembersValid, hmembers]
  exact List.forall_mem_map.mpr hvalues.valid

/-! ### Declarations of a file -/

/-- The names of the file's declarations, category by category. -/
def declaredNames (names : Names) (selected : List Category) : List String :=
  (if .prismaModel ∈ selected then ["PrismaModel"] else []) ++
  (if .modelName ∈ selected then ["ModelName"] else []) ++
  (if .tableName ∈ selected then ["TableName"] else []) ++
  if .enums ∈ selected then names.enums.map (·.1 ++ "Enum") else []

theorem EnumFile.build_eq_ok {names : Names} {selected : List Category} {f : EnumFile}
    (h : EnumFile.build names selected = .ok f) :
    f.exports = declaredNames names selected ∧ ∀ d ∈ f.declarations, d.MembersValid := by
  refine ⟨?_, fun d hd => (EnumFile.made_of_build h d hd).membersValid⟩
  obtain ⟨-, rfl⟩ := (EnumFile.build_settles names selected).eq_ok_iff.mp h
  simp only [EnumFile.exports, Names.declarations, Category.collect_eq, Names.declarationsOf,
    declaredNames, List.map_append, apply_ite (List.map Declaration.name), List.map_map,
    List.map_cons, List.map_nil, List.append_nil, List.append_assoc]
  rfl

/-! ### Names of enums -/

/-- Every enum of a schema has a name of the grammar. -/
theorem isName_of_read {text : String} {s : Summary} (h : Summary.read text = .ok s)
    {e : EnumSummary} (he : e ∈ s.enums) : IsName e.name.toList := by
  obtain ⟨d, hd, rfl⟩ := map_eq_ok_iff.mp h
  obtain ⟨b, hb, hbe⟩ := List.mem_filterMap.mp he
  obtain ⟨block, rfl, rfl⟩ := Block.enum?_eq_some_iff.mp hbe
  have hwf := Document.wellFormed_of_parse (Document.read_eq_ok_iff.mp hd).1 _ hb
  exact hwf.1

/-- A character of names is one of identifiers, unless it is the hyphen. -/
theorem isIdentifierChar_iff {x : Char} (h : Grammar.isNameChar x = true) :
    isIdentifierChar x = true ↔ x ≠ '-' := by
  constructor
  · rintro hx rfl
    exact absurd hx (by decide)
  · intro hx
    simp only [Grammar.isNameChar, Bool.or_eq_true, beq_iff_eq, hx, or_false] at h
    simp only [isIdentifierChar, Bool.or_eq_true, beq_iff_eq, h, true_or]

/-- The name made for an enum is an identifier exactly if the enum's name has no hyphen. -/
theorem isIdentifier_enum_iff {n : String} (h : IsName n.toList) :
    isIdentifier (n ++ "Enum") = true ↔ '-' ∉ n.toList := by
  obtain ⟨x, xs, hn, hx, hxs⟩ := h
  have hstart : isIdentifierStart x = true := by
    rw [isIdentifierStart, show (x.isAlpha || x == '_') = true from hx, Bool.true_or]
  have hhyphen : '-' ≠ x := by
    rintro rfl
    exact absurd hx (by decide)
  have hsuffix : "Enum".toList.all isIdentifierChar = true := by decide
  rw [isIdentifier, String.toList_append, hn, List.cons_append]
  simp only [hstart, Bool.true_and, List.all_append, hsuffix, Bool.and_true, List.all_eq_true,
    List.mem_cons, hhyphen, false_or]
  constructor
  · intro hall hmem
    exact (isIdentifierChar_iff (hxs '-' hmem)).mp (hall '-' hmem) rfl
  · rintro hmem y hy
    exact (isIdentifierChar_iff (hxs y hy)).mpr fun h => hmem (h ▸ hy)

theorem enum_names_valid_iff {text : String} {s : Summary} (hs : Summary.read text = .ok s) :
    (∀ n ∈ (valuesByName s.enums).map (·.1 ++ "Enum"), isIdentifier n = true) ↔
      ∀ e ∈ s.enums, '-' ∉ e.name.toList := by
  constructor
  · intro h e he
    obtain ⟨entry, hentry, hname⟩ := List.mem_map.mp
      (mem_names_valuesByName.mpr (List.mem_map_of_mem he))
    rw [← isIdentifier_enum_iff (isName_of_read hs he), ← hname]
    exact h _ (List.mem_map_of_mem hentry)
  · intro h n hn
    obtain ⟨entry, hentry, rfl⟩ := List.mem_map.mp hn
    obtain ⟨e, he, hname⟩ := List.mem_map.mp
      (mem_names_valuesByName.mp (List.mem_map_of_mem hentry))
    rw [← hname]
    exact (isIdentifier_enum_iff (isName_of_read hs he)).mpr (h e he)

/-! ### Names of declarations -/

/-- A fixed name that is an identifier, declared or not. -/
theorem fixed_name_valid {n : String} (h : isIdentifier n = true) (p : Prop) [Decidable p] :
    ∀ m ∈ (if p then [n] else []), isIdentifier m = true := by
  split
  case isTrue => exact List.forall_mem_singleton.mpr h
  case isFalse => simp

/-- **When the names of a generated file are identifiers.**  The members' always are; the
declarations' are exactly if no enum with a hyphen in its name is to be declared. -/
theorem declared_names_valid_iff (text : String) (s : Summary) (selected : List Category)
    (f : EnumFile) (hs : Summary.read text = .ok s)
    (hf : EnumFile.build (Names.ofSummary s) selected = .ok f) :
    (∀ d ∈ f.declarations, ∀ m ∈ d.members, isIdentifier m.identifier = true) ∧
      ((∀ d ∈ f.declarations, isIdentifier d.name = true) ↔
        (.enums ∈ selected → ∀ e ∈ s.enums, '-' ∉ e.name.toList)) := by
  obtain ⟨hnames, hvalid⟩ := EnumFile.build_eq_ok hf
  refine ⟨hvalid, ?_⟩
  have hexports : (∀ d ∈ f.declarations, isIdentifier d.name = true) ↔
      ∀ n ∈ f.exports, isIdentifier n = true := by
    rw [EnumFile.exports, List.forall_mem_map]
  have henums : (∀ n ∈ if .enums ∈ selected then
        (Names.ofSummary s).enums.map (·.1 ++ "Enum") else [],
      isIdentifier n = true) ↔ (.enums ∈ selected → ∀ e ∈ s.enums, '-' ∉ e.name.toList) := by
    rw [← enum_names_valid_iff hs]
    split
    case isTrue h => simp only [h, true_imp_iff]; rfl
    case isFalse h => simp only [h, false_imp_iff, iff_true]; simp
  rw [hexports, hnames, declaredNames]
  simp only [List.forall_mem_append, henums]
  exact ⟨fun h => h.2, fun h => ⟨⟨⟨fixed_name_valid rfl _, fixed_name_valid rfl _⟩,
    fixed_name_valid rfl _⟩, h⟩⟩

theorem declared_names_valid_underscore :
    Summary.read "enum a_b \x7b\n  x\n\x7d\n" = .ok ⟨[], [⟨"a_b", ["x"]⟩]⟩ ∧
      EnumFile.build (Names.ofSummary ⟨[], [⟨"a_b", ["x"]⟩]⟩) [.enums] =
        .ok ⟨[⟨"a_bEnum", [⟨"X", "x"⟩]⟩]⟩ ∧
      isIdentifier "a_bEnum" = true :=
  ⟨rfl, rfl, (declared_names_valid_iff "enum a_b \x7b\n  x\n\x7d\n" ⟨[], [⟨"a_b", ["x"]⟩]⟩ [.enums]
    ⟨[⟨"a_bEnum", [⟨"X", "x"⟩]⟩]⟩ rfl rfl).2.mpr (by decide) ⟨"a_bEnum", [⟨"X", "x"⟩]⟩ (by simp)⟩

/-- An enum whose name has a hyphen is declared under a name that is no identifier. -/
theorem declared_name_hyphen :
    ¬ ∀ (text : String) (s : Summary) (selected : List Category) (f : EnumFile),
      Summary.read text = .ok s → EnumFile.build (Names.ofSummary s) selected = .ok f →
        ∀ d ∈ f.declarations, isIdentifier d.name = true := by
  intro h
  have hd := h "enum a-b \x7b\n  X\n\x7d\n" ⟨[], [⟨"a-b", ["X"]⟩]⟩ [.enums]
    ⟨[⟨"a-bEnum", [⟨"X", "X"⟩]⟩]⟩ rfl rfl ⟨"a-bEnum", [⟨"X", "X"⟩]⟩ (by simp)
  exact absurd hd (by decide)

end SchemaEnums.Enums
