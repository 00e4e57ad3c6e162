import SchemaEnums.Proofs.Files.Place

/-!
# Files — Temporary

The temporary path of a path with a file name.  It stands beside the path, under the file's name with
`.tmp` at its end, whatever dots there are in that name; so different names have different temporary
ones (`temporary_beside_iff`).

There is one exception, and only where nothing stands behind the file's name: if that is two dots and
an extension (`EndsDotted`), the temporary path is that of the directory above.  All such names in a
directory share it.  The names of the temporary path are told in one place (`names_temporary_eq`),
and all else is read off them.
-/

namespace SchemaEnums.Files.Path

variable {path n : String} {ns trail : List String}

/-! ### File names and directories -/

/-- A file name stands in a path before names that say nothing. -/
theorem names_of_fileName? (h : fileName? path = some n) :
    ∃ ns trail, names path = ns ++ n :: trail ∧ IsFileName n ∧
      ∀ m ∈ trail, isTrivial m = true := by
  obtain ⟨trail, htrail, htrivial⟩ := exists_trail (names path)
  rw [fileName?] at h
  split at h
  case h_1 m hlast =>
    split at h
    case isTrue => cases h
    case isFalse hm =>
      obtain rfl := Option.some.inj h
      obtain ⟨ns, hns⟩ := List.getLast?_eq_some_iff.mp hlast
      refine ⟨ns, trail, ?_, by simpa [IsFileName] using hm, htrivial⟩
      rw [htrail, hns, List.append_assoc, List.singleton_append]
  case h_2 => cases h

/-- The directory around a path does not depend on the last name that says something. -/
theorem parent?_append (h : names path = ns ++ n :: trail) (hn : isTrivial n = false)
    (htrail : ∀ m ∈ trail, isTrivial m = true) :
    parent? path = some (if ns = [] then "" else ofTrimmed (trimmed ns)) := by
  have htrimmed : trimmed (names path) = ns ++ [n] := by rw [h, trimmed_append hn htrail]
  rw [parent?, htrimmed]
  cases ns with
  | nil =>
      split
      case h_1 hnil => cases hnil
      case h_2 hone =>
        -- the name would be empty, and say nothing
        obtain rfl := List.singleton_inj.mp hone
        cases hn
      case h_3 => rfl
      case h_4 hmany => exact absurd rfl (hmany n)
  | cons m ms =>
      rw [if_neg (List.cons_ne_nil m ms)]
      split
      case h_1 hnil => cases hnil
      case h_2 hone => simp at hone
      case h_3 hone => simp at hone
      case h_4 =>
        rw [List.dropLast_concat]
        exact (some_ofTrimmed _).symm

/-- A file name with `.tmp` at its end is longer than any name that leads elsewhere. -/
theorem isFileName_tmp (n : String) : IsFileName (n ++ ".tmp") := by
  have hname : n ++ ".tmp" = String.ofList (n.toList ++ ".tmp".toList) := by
    rw [← String.toList_append, String.ofList_toList]
  have hlength : 4 ≤ (n.toList ++ ".tmp".toList).length := by
    rw [List.length_append]
    exact Nat.le_add_left ..
  rw [hname, isFileName_ofList_iff]
  refine ⟨?_, ?_, ?_⟩ <;> intro h <;> rw [h] at hlength <;> exact absurd hlength (by decide)

theorem append_tmp_ne (n : String) : n ++ ".tmp" ≠ n := by
  intro h
  have hlength := congrArg String.length h
  rw [String.length_append] at hlength
  exact absurd (Nat.add_eq_left.mp hlength) (by decide)

/-! ### Temporary paths -/

/-- The path ends in a name that is two dots and an extension. -/
def EndsDotted (path : String) : Prop :=
  ∃ n ∈ (names path).getLast?, IsDotted n

instance (path : String) : Decidable (EndsDotted path) :=
  inferInstanceAs (Decidable (∃ n ∈ (names path).getLast?, IsDotted n))

theorem not_isDotted_of_isTrivial (h : isTrivial n = true) : ¬ IsDotted n := by
  rintro ⟨e, hn, hne, -⟩
  obtain rfl : n = String.ofList ('.' :: '.' :: e) := by rw [← hn, String.ofList_toList]
  rw [isTrivial_ofList_iff] at h
  simp at h

/-- Only a file name that nothing stands behind can be the dotted one. -/
theorem endsDotted_iff (h : names path = ns ++ n :: trail)
    (htrail : ∀ m ∈ trail, isTrivial m = true) : EndsDotted path ↔ trail = [] ∧ IsDotted n := by
  rcases List.eq_nil_or_concat' trail with rfl | ⟨front, m, rfl⟩
  · simp [EndsDotted, h]
  · have hm : ¬ IsDotted m := not_isDotted_of_isTrivial (htrail m (by simp))
    have hlast : (names path).getLast? = some m := by
      rw [h, ← List.cons_append, ← List.append_assoc, List.getLast?_concat]
    simp [EndsDotted, hlast, hm]

/-- **The names of the temporary path.** -/
theorem names_temporary_eq (h : names path = ns ++ n :: trail) (hn : IsFileName n)
    (htrail : ∀ m ∈ trail, isTrivial m = true) :
    names (temporary path) = ns ++ [if EndsDotted path then ".." else n ++ ".tmp"] := by
  have hends := endsDotted_iff h htrail
  by_cases hne : trail = []
  · subst hne
    by_cases hdotted : IsDotted n
    · rw [if_pos (hends.mpr ⟨rfl, hdotted⟩), names_temporary_of_isDotted h hn hdotted]
    · rw [if_neg fun hd => hdotted (hends.mp hd).2, temporary_of_not_isDotted h hn hdotted,
        names_append h (by decide)]
  · rw [if_neg fun hd => hne (hends.mp hd).1, names_temporary_append h hn hne htrail]

theorem fileName?_temporary (h : fileName? path = some n) :
    fileName? (temporary path) = if EndsDotted path then none else some (n ++ ".tmp") := by
  obtain ⟨ns, trail, hnames, hn, htrail⟩ := names_of_fileName? h
  have htemporary := names_temporary_eq hnames hn htrail
  split
  case isTrue hdotted =>
    rw [if_pos hdotted] at htemporary
    rw [fileName?, htemporary, trimmed_concat rfl, List.getLast?_concat]
    rfl
  case isFalse hdotted =>
    rw [if_neg hdotted] at htemporary
    exact fileName?_eq htemporary (isFileName_tmp n)

theorem parent?_temporary (h : fileName? path = some n) :
    parent? (temporary path) = parent? path := by
  obtain ⟨ns, trail, hnames, hn, htrail⟩ := names_of_fileName? h
  have hlast : isTrivial (if EndsDotted path then ".." else n ++ ".tmp") = false := by
    split
    case isTrue => rfl
    case isFalse => exact (isFileName_tmp n).not_isTrivial
  rw [parent?_append (names_temporary_eq hnames hn htrail) hlast (by simp),
    parent?_append hnames hn.not_isTrivial htrail]

theorem temporary_ne (h : fileName? path = some n) : temporary path ≠ path := by
  intro heq
  have hname := fileName?_temporary h
  rw [heq, h] at hname
  split at hname
  case isTrue => cases hname
  case isFalse => exact append_tmp_ne n (Option.some.inj hname).symm

/-- **The temporary path is a fresh one beside the path, exactly if that does not end in two dots and
an extension.**  It has the path's directory and differs from the path in any case; its name is that
of the file with `.tmp` at its end, unless the path ends so; and the temporary paths of files with
different names have different names, unless both end so. -/
theorem temporary_beside_iff (path n : String) (h : fileName? path = some n) :
    parent? (temporary path) = parent? path ∧ temporary path ≠ path ∧
      (fileName? (temporary path) = some (n ++ ".tmp") ↔ ¬ EndsDotted path) ∧
      ∀ other m : String, fileName? other = some m → m ≠ n →
        (fileName? (temporary other) ≠ fileName? (temporary path) ↔
          ¬ (EndsDotted other ∧ EndsDotted path)) := by
  refine ⟨parent?_temporary h, temporary_ne h, ?_, fun other m hm hne => ?_⟩
  · rw [fileName?_temporary h]
    split
    case isTrue hdotted => exact iff_of_false nofun fun hnot => hnot hdotted
    case isFalse hdotted => exact iff_of_true rfl hdotted
  · have hnames : m ++ ".tmp" ≠ n ++ ".tmp" := fun heq => hne ((String.append_left_inj _).mp heq)
    rw [fileName?_temporary h, fileName?_temporary hm]
    by_cases hother : EndsDotted other <;> by_cases hdotted : EndsDotted path <;>
      simp [hother, hdotted, hnames]

/-- Three dots at the front, and a slash behind the name, are no exception. -/
theorem temporary_beside_dots :
    fileName? "out/...ts" = some "...ts" ∧ fileName? "out/..ts/" = some "..ts" ∧
      parent? (temporary "out/...ts") = some "out" ∧
      fileName? (temporary "out/...ts") = some "...ts.tmp" ∧
      fileName? (temporary "out/..ts/") ≠ fileName? (temporary "out/...ts") := by
  have h : fileName? "out/...ts" = some "...ts" := by decide
  have hother : fileName? "out/..ts/" = some "..ts" := by decide
  obtain ⟨hparent, -, hname, hothers⟩ := temporary_beside_iff "out/...ts" "...ts" h
  exact ⟨h, hother, hparent.trans (by decide), hname.mpr (by decide),
    (hothers _ _ hother (by decide)).mpr (by decide)⟩

/-- Two files of one directory whose temporary path is the directory above it. -/
theorem temporary_of_dots :
    fileName? "..ts" = some "..ts" ∧ fileName? (temporary "..ts") ≠ some ("..ts" ++ ".tmp") ∧
      fileName? "..js" = some "..js" ∧ parent? "..js" = parent? "..ts" ∧
      temporary "..ts" = ".." ∧ temporary "..js" = ".." := by
  decide

end SchemaEnums.Files.Path
