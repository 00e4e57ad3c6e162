import SchemaEnums.Layout.Render
import SchemaEnums.Proofs.Layout.Script

/-!
# Layout — OneLine

No line of a generated file holds a line break, so a file has the lines that `fileLines` gives it
and no value adds one.
-/

namespace SchemaEnums.Layout
open Text Enums

/-! ### Pieces of a line -/

/-- No line break is in the text. -/
def OneLine (s : String) : Prop := ∀ x ∈ s.toList, x ≠ '\n' ∧ x ≠ '\r'

instance : DecidablePred OneLine := fun s =>
  decidable_of_iff (s.toList.all (fun x => x != '\n' && x != '\r') = true) (by simp [OneLine])

theorem OneLine.append {s t : String} (hs : OneLine s) (ht : OneLine t) : OneLine (s ++ t) := by
  intro x hx
  rw [String.toList_append, List.mem_append] at hx
  exact hx.elim (hs x) (ht x)

theorem oneLine_of_isWord {s : String} (h : Script.IsWord s.toList) : OneLine s := by
  intro x hx
  have := h.2 x hx
  constructor <;> rintro rfl <;> exact absurd this (by decide)

theorem oneLine_indent (o : Options) : OneLine o.indent := by
  rw [Options.indent]
  split
  case isTrue => decide
  case isFalse =>
    intro x hx
    rw [String.toList_ofList] at hx
    obtain rfl := List.eq_of_mem_replicate hx
    decide

theorem oneLine_literal (preferSingle : Bool) (s : String) :
    OneLine (Quote.literal preferSingle s) := by
  intro x hx
  have hq := Literal.isQuote_delimiter preferSingle s.toList
  rw [Literal.literal_toList] at hx
  generalize Quote.delimiter preferSingle s.toList = q at hq hx
  have hdelimiter : q ≠ '\n' ∧ q ≠ '\r' := by
    rcases Literal.isQuote_iff.mp hq with rfl | rfl <;> decide
  rw [List.cons_append, List.mem_cons, List.mem_append, List.mem_singleton] at hx
  rcases hx with rfl | hx | rfl
  · exact hdelimiter
  · exact Literal.oneLine_between hq s.toList x hx
  · exact hdelimiter

theorem oneLine_trailingComma (o : Options) : OneLine o.trailingComma.text := by
  cases o.trailingComma <;> decide

theorem oneLine_semicolon (o : Options) : OneLine o.semicolon := by
  rw [Options.semicolon]
  split <;> decide

theorem oneLine_padding (o : Options) : OneLine o.padding := by
  rw [Options.padding]
  split <;> decide

theorem oneLine_memberText (o : Options) {m : Member} (h : OneLine m.identifier) :
    OneLine (memberText o m) :=
  (h.append (by decide)).append (oneLine_literal o.singleQuote m.value)

/-! ### Lines -/

theorem oneLine_itemLines {indent last : String} (hi : OneLine indent) (hl : OneLine last) :
    ∀ {items : List String}, (∀ i ∈ items, OneLine i) → ∀ l ∈ itemLines indent last items, OneLine l
  | [],           _ => by simp [itemLines]
  | [i],          h => by
      rw [itemLines, List.forall_mem_singleton]
      exact (hi.append (h i (by simp))).append hl
  | i :: j :: is, h => by
      rw [itemLines, List.forall_mem_cons]
      · exact ⟨(hi.append (h i (by simp))).append (by decide),
          oneLine_itemLines hi hl fun k hk => h k (List.mem_cons_of_mem i hk)⟩
      · simp

theorem oneLine_declarationLines (o : Options) {d : Declaration} (h : OneLine d.name)
    (hm : ∀ m ∈ d.members, OneLine m.identifier) :
    ∀ l ∈ declarationLines o d, OneLine l := by
  have hhead : OneLine ("enum " ++ d.name) := OneLine.append (by decide) h
  rw [declarationLines]
  split
  case h_1 => exact List.forall_mem_singleton.mpr (hhead.append (by decide))
  case h_2 =>
    refine List.forall_mem_append.mpr ⟨List.forall_mem_append.mpr
      ⟨List.forall_mem_singleton.mpr (hhead.append (by decide)), ?_⟩,
      List.forall_mem_singleton.mpr (by decide)⟩
    refine oneLine_itemLines (oneLine_indent o) (oneLine_trailingComma o) fun i hi => ?_
    obtain ⟨m, hmem, rfl⟩ := List.mem_map.mp hi
    exact oneLine_memberText o (hm m hmem)

theorem oneLine_intercalate {names : List String} (h : ∀ n ∈ names, OneLine n) :
    OneLine (", ".intercalate names) := by
  intro x hx
  rw [String.toList_intercalate] at hx
  cases names with
  | nil => simp at hx
  | cons n ns =>
      rw [List.map_cons, intercalate_cons, List.mem_append, List.mem_flatMap] at hx
      rcases hx with hx | ⟨t, ht, hx⟩
      · exact h n (by simp) x hx
      · obtain ⟨m, hm, rfl⟩ := List.mem_map.mp ht
        rcases List.mem_append.mp hx with hx | hx
        · exact (show OneLine ", " by decide) x hx
        · exact h m (by simp [hm]) x hx

theorem oneLine_exportLines (o : Options) {names : List String}
    (h : ∀ n ∈ names, OneLine n) : ∀ l ∈ exportLines o names, OneLine l := by
  cases names with
  | nil => exact List.forall_mem_singleton.mpr (OneLine.append (by decide) (oneLine_semicolon o))
  | cons n ns =>
      rw [exportLines]
      · split
        case isTrue =>
          refine List.forall_mem_singleton.mpr ?_
          exact ((((OneLine.append (by decide) (oneLine_padding o)).append
            (oneLine_intercalate h)).append (oneLine_padding o)).append (by decide)).append
            (oneLine_semicolon o)
        case isFalse =>
          refine List.forall_mem_append.mpr ⟨List.forall_mem_append.mpr
            ⟨List.forall_mem_singleton.mpr (by decide), ?_⟩,
            List.forall_mem_singleton.mpr (OneLine.append (by decide) (oneLine_semicolon o))⟩
          exact oneLine_itemLines (oneLine_indent o) (oneLine_trailingComma o) h
      · simp

/-- No name or identifier of the file holds a line break. -/
def EnumFile.Unbroken (f : EnumFile) : Prop :=
  ∀ d ∈ f.declarations, OneLine d.name ∧ ∀ m ∈ d.members, OneLine m.identifier

instance : DecidablePred EnumFile.Unbroken := fun f =>
  inferInstanceAs (Decidable (∀ d ∈ f.declarations, _ ∧ ∀ m ∈ d.members, _))

theorem EnumFile.Unbroken.exports {f : EnumFile} (h : EnumFile.Unbroken f) :
    ∀ n ∈ f.exports, OneLine n := by
  intro n hn
  obtain ⟨d, hd, rfl⟩ := List.mem_map.mp hn
  exact (h d hd).1

/-- **Every line of a file is one**, whatever the values of its members. -/
theorem EnumFile.Unbroken.oneLine (o : Options) {f : EnumFile} (h : EnumFile.Unbroken f) :
    ∀ l ∈ fileLines o f, OneLine l := by
  refine List.forall_mem_append.mpr ⟨List.forall_mem_append.mpr ⟨?_, ?_⟩,
    oneLine_exportLines o h.exports⟩
  · exact List.forall_mem_cons.mpr ⟨by decide, List.forall_mem_singleton.mpr (by decide)⟩
  · intro l hl
    obtain ⟨d, hd, hl⟩ := List.mem_flatMap.mp hl
    rcases List.mem_append.mp hl with hl | hl
    · exact oneLine_declarationLines o (h d hd).1 (h d hd).2 l hl
    · rw [List.mem_singleton.mp hl]
      decide

/-- The names and identifiers of the file are words. -/
def EnumFile.Plain (f : EnumFile) : Prop :=
  ∀ d ∈ f.declarations, Script.IsWord d.name.toList ∧
    ∀ m ∈ d.members, Script.IsWord m.identifier.toList

instance : DecidablePred EnumFile.Plain := fun f =>
  inferInstanceAs (Decidable (∀ d ∈ f.declarations, _ ∧ ∀ m ∈ d.members, _))

theorem EnumFile.Plain.unbroken {f : EnumFile} (h : EnumFile.Plain f) : EnumFile.Unbroken f :=
  fun d hd => ⟨oneLine_of_isWord (h d hd).1, fun m hm => oneLine_of_isWord ((h d hd).2 m hm)⟩

theorem oneLine_fileLines (o : Options) {f : EnumFile} (h : EnumFile.Plain f) :
    ∀ l ∈ fileLines o f, OneLine l := h.unbroken.oneLine o

end SchemaEnums.Layout
