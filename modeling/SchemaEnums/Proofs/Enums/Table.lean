import Mathlib.Data.List.Induction
import Mathlib.Data.List.Nodup
import SchemaEnums.Enums.Names
import SchemaEnums.Proofs.Schema.Check

/-!
# Enums — Table

The table of the enums' names and values.  A name stands in it where it first occurs among the enums,
with the values that it has where it last occurs (`table_of_enums`).

Putting an entry keeps the names of a table or adds one behind them (`names_put`), and it takes the
values from that entry for its name and from the table for any other (`mem_put_iff`).  What the whole
table holds follows by induction on the enums from their end, where the last one is put
(`valuesByName_concat`).
-/

namespace SchemaEnums.Enums
open Schema

variable {name : String} {values : List String} {table : List (String × List String)}
  {enums : List EnumSummary}

/-! ### One entry -/

theorem put_of_not_mem : ∀ {table : List (String × List String)}, name ∉ table.map (·.1) →
    put name values table = table ++ [(name, values)]
  | [],            _ => rfl
  | entry :: rest, h => by
      rw [List.map_cons, List.mem_cons, not_or] at h
      rw [put, if_neg (by simpa using Ne.symm h.1), put_of_not_mem h.2, List.cons_append]

theorem names_put_of_mem : ∀ {table : List (String × List String)}, name ∈ table.map (·.1) →
    (put name values table).map (·.1) = table.map (·.1)
  | [],            h => nomatch h
  | entry :: rest, h => by
      rw [put]
      split
      case isTrue heq =>
        rw [beq_iff_eq] at heq
        rw [List.map_cons, List.map_cons, heq]
      case isFalse hne =>
        rw [List.map_cons, List.mem_cons] at h
        have hrest : name ∈ rest.map (·.1) := h.resolve_left fun heq =>
          hne (beq_iff_eq.mpr heq.symm)
        rw [List.map_cons, List.map_cons, names_put_of_mem hrest]

/-- The names of a table stay, and a new one goes behind them. -/
theorem names_put : (put name values table).map (·.1) =
    if name ∈ table.map (·.1) then table.map (·.1) else table.map (·.1) ++ [name] := by
  split
  case isTrue h => exact names_put_of_mem h
  case isFalse h => rw [put_of_not_mem h, List.map_append, List.map_singleton]

theorem nodup_put (h : (table.map (·.1)).Nodup) : ((put name values table).map (·.1)).Nodup := by
  rw [names_put]
  split
  case isTrue => exact h
  case isFalse hmem => exact List.nodup_append'.mpr ⟨h, List.nodup_singleton _, by simpa using hmem⟩

/-- An entry of the table is the one that was put, or was there under another name. -/
theorem mem_put_iff {entry : String × List String} :
    ∀ {table : List (String × List String)}, (table.map (·.1)).Nodup →
      (entry ∈ put name values table ↔
        entry = (name, values) ∨ entry.1 ≠ name ∧ entry ∈ table)
  | [],           _ => by simp [put]
  | first :: rest, h => by
      rw [List.map_cons, List.nodup_cons] at h
      rw [put]
      split
      case isTrue heq =>
        rw [beq_iff_eq] at heq
        -- no other entry has the name, since the names are distinct
        have hrest : entry ∈ rest → entry.1 ≠ name := fun hmem hname =>
          h.1 (List.mem_map.mpr ⟨entry, hmem, hname.trans heq.symm⟩)
        rw [List.mem_cons, List.mem_cons]
        constructor
        · exact Or.imp id fun hmem => ⟨hrest hmem, .inr hmem⟩
        · rintro (hentry | ⟨hne, rfl | hmem⟩)
          · exact .inl hentry
          · exact absurd heq hne
          · exact .inr hmem
      case isFalse hne =>
        rw [List.mem_cons, List.mem_cons, mem_put_iff h.2]
        have hfirst : entry = first → entry.1 ≠ name := fun hentry hname =>
          hne (beq_iff_eq.mpr (hentry ▸ hname))
        tauto

/-! ### All entries -/

theorem valuesByName_concat (enums : List EnumSummary) (e : EnumSummary) :
    valuesByName (enums ++ [e]) = put e.name e.values (valuesByName enums) :=
  List.foldl_concat ..

/-- No name stands twice in the table. -/
theorem nodup_valuesByName (enums : List EnumSummary) : ((valuesByName enums).map (·.1)).Nodup := by
  induction enums using List.reverseRecOn with
  | nil => exact List.nodup_nil
  | append_singleton enums e ih =>
      rw [valuesByName_concat]
      exact nodup_put ih

/-- One more name, if it is none of the names before, comes behind them. -/
theorem eraseDups_concat (names : List String) (n : String) :
    (names ++ [n]).eraseDups =
      if n ∈ names.eraseDups then names.eraseDups else names.eraseDups ++ [n] := by
  rw [List.eraseDups_append]
  split
  case isTrue h => simp [List.removeAll, List.mem_eraseDups.mp h]
  case isFalse h => simp [List.removeAll, mt List.mem_eraseDups.mpr h, List.eraseDups_cons]

/-- The table has each name where it first occurs. -/
theorem names_valuesByName (enums : List EnumSummary) :
    (valuesByName enums).map (·.1) = (enums.map (·.name)).eraseDups := by
  induction enums using List.reverseRecOn with
  | nil => rfl
  | append_singleton enums e ih =>
      rw [valuesByName_concat, names_put, ih, List.map_append, List.map_singleton,
        eraseDups_concat]

theorem mem_names_valuesByName {n : String} :
    n ∈ (valuesByName enums).map (·.1) ↔ n ∈ enums.map (·.name) := by
  rw [names_valuesByName, List.mem_eraseDups]

/-- The enum stands in the list with none of its name behind it. -/
def IsLast (enums : List EnumSummary) (e : EnumSummary) : Prop :=
  ∃ before after, enums = before ++ e :: after ∧ ∀ x ∈ after, x.name ≠ e.name

theorem isLast_concat_iff {e x : EnumSummary} :
    IsLast (enums ++ [e]) x ↔ x = e ∨ x.name ≠ e.name ∧ IsLast enums x := by
  constructor
  · rintro ⟨before, after, heq, hafter⟩
    rcases List.eq_nil_or_concat' after with rfl | ⟨after, y, rfl⟩
    · exact .inl (List.singleton_inj.mp (List.append_inj' heq rfl).2).symm
    · rw [← List.cons_append, ← List.append_assoc] at heq
      obtain ⟨rfl, hlast⟩ := List.append_inj' heq rfl
      obtain rfl := List.singleton_inj.mp hlast
      rw [List.forall_mem_append, List.forall_mem_singleton] at hafter
      exact .inr ⟨Ne.symm hafter.2, before, after, rfl, hafter.1⟩
  · rintro (rfl | ⟨hne, before, after, rfl, hafter⟩)
    · exact ⟨enums, [], rfl, by simp⟩
    · refine ⟨before, after ++ [e], by simp, ?_⟩
      rw [List.forall_mem_append, List.forall_mem_singleton]
      exact ⟨hafter, Ne.symm hne⟩

/-- The table has the values of each name where it last occurs. -/
theorem mem_valuesByName_iff {e : EnumSummary} :
    (e.name, e.values) ∈ valuesByName enums ↔ IsLast enums e := by
  induction enums using List.reverseRecOn with
  | nil => exact iff_of_false List.not_mem_nil fun ⟨_, _, h, _⟩ => by simp at h
  | append_singleton enums x ih =>
      have hentry : (e.name, e.values) = (x.name, x.values) ↔ e = x := by
        cases e; cases x; simp
      rw [valuesByName_concat, mem_put_iff (nodup_valuesByName enums), hentry, ih,
        isLast_concat_iff]

/-- Where each enum has a name of its own, the table lists the enums as they are. -/
theorem valuesByName_of_nodup (h : (enums.map (·.name)).Nodup) :
    valuesByName enums = enums.map fun e => (e.name, e.values) := by
  induction enums using List.reverseRecOn with
  | nil => rfl
  | append_singleton enums e ih =>
      rw [List.map_append, List.nodup_append'] at h
      have hmem : e.name ∉ (valuesByName enums).map (·.1) := by
        rw [mem_names_valuesByName]
        exact fun hmem => h.2.2 hmem (List.mem_singleton.mpr rfl)
      rw [valuesByName_concat, put_of_not_mem hmem, ih h.1, List.map_append, List.map_singleton]

/-- **The table of enums.**  No name stands in it twice; the names stand in it in the order in which
they first occur, each with the values of the last enum of that name.  The table of the enums that
it lists is the same, and the enums of a schema that was read are in it as they are. -/
theorem table_of_enums (enums : List EnumSummary) :
    ((valuesByName enums).map (·.1)).Nodup ∧
      (valuesByName enums).map (·.1) = (enums.map (·.name)).eraseDups ∧
      (∀ name values, (name, values) ∈ valuesByName enums ↔ IsLast enums ⟨name, values⟩) ∧
      valuesByName ((valuesByName enums).map fun entry => ⟨entry.1, entry.2⟩) =
        valuesByName enums ∧
      ∀ (text : String) (s : Summary), Summary.read text = .ok s →
        valuesByName s.enums = s.enums.map fun e => (e.name, e.values) := by
  refine ⟨nodup_valuesByName enums, names_valuesByName enums,
    fun name values => mem_valuesByName_iff (e := ⟨name, values⟩), ?_, fun text s h => ?_⟩
  · rw [valuesByName_of_nodup, List.map_map]
    · exact List.map_id _
    · rw [List.map_map]
      exact nodup_valuesByName enums
  · obtain ⟨d, hd, rfl⟩ := map_eq_ok_iff.mp h
    exact valuesByName_of_nodup (Document.nodup_enum_names (Document.read_eq_ok_iff.mp hd).2)

/-- A schema with two enums. -/
def twoEnumsText : String := "enum B \x7b\nX\nY\n\x7d\nenum A \x7b\nZ\n\x7d"

theorem table_of_enums_repeated :
    valuesByName [⟨"B", ["X"]⟩, ⟨"A", ["Z"]⟩, ⟨"B", ["Y", "X"]⟩] =
        [("B", ["Y", "X"]), ("A", ["Z"])] ∧
      IsLast [⟨"B", ["X"]⟩, ⟨"A", ["Z"]⟩, ⟨"B", ["Y", "X"]⟩] ⟨"B", ["Y", "X"]⟩ ∧
      Summary.read twoEnumsText = .ok ⟨[], [⟨"B", ["X", "Y"]⟩, ⟨"A", ["Z"]⟩]⟩ ∧
      valuesByName [⟨"B", ["X", "Y"]⟩, ⟨"A", ["Z"]⟩] = [("B", ["X", "Y"]), ("A", ["Z"])] := by
  have hread : Summary.read twoEnumsText = .ok ⟨[], [⟨"B", ["X", "Y"]⟩, ⟨"A", ["Z"]⟩]⟩ := by
    decide +kernel
  obtain ⟨-, -, hlast, -, hschema⟩ :=
    table_of_enums [⟨"B", ["X"]⟩, ⟨"A", ["Z"]⟩, ⟨"B", ["Y", "X"]⟩]
  exact ⟨rfl, (hlast "B" ["Y", "X"]).mp (by decide), hread, hschema _ _ hread⟩

end SchemaEnums.Enums
