import SchemaEnums.Config.Resolve
import SchemaEnums.Proofs.Files.Place

/-!
# Config — Candidates

The files that a configuration is looked for in.  Each bears one of the `fileNames` in the directory
or in one around it (`candidate_place`); those of a directory come before those of the directories
around it (`candidates_eq`); and what is found depends on the files under these paths and on nothing
else of the disk (`choose_congr`).
-/

namespace SchemaEnums.Files.Path

/-! ### Paths in a directory -/

theorem names_slash (path : String) {n : String} (hn : '/' ∉ n.toList) :
    names (path ++ "/" ++ n) = names path ++ [n] := by
  obtain ⟨ns, t, hsplit, hpath, hns, ht⟩ := exists_split path.toList
  have hchars : (path ++ "/" ++ n).toList = slashed (ns ++ [t]) ++ n.toList := by
    rw [String.toList_append, String.toList_append, hpath]
    simp [slashed]
  have hall : ∀ m ∈ ns ++ [t], '/' ∉ m := by
    intro m hm
    rw [List.mem_append, List.mem_singleton] at hm
    rcases hm with hm | rfl
    · exact hns m hm
    · exact ht
  rw [names, names, hchars, split_slashed hn hall, hsplit]
  simp

/-- The path of a name in a directory ends in that name, behind names of the directory. -/
theorem names_join {directory n : String} (hn : '/' ∉ n.toList) :
    ∃ ns, names (join directory n) = ns ++ [n] ∧ ∀ m ∈ ns, m ∈ names directory := by
  have hrelative : isAbsolute n = false := by
    rw [isAbsolute]
    cases hchars : n.toList with
    | nil => rfl
    | cons x rest =>
        rw [hchars, List.mem_cons, not_or] at hn
        simpa using Ne.symm hn.1
  have hself : names n = [n] := by
    rw [names, split_last hn, List.map_singleton, String.ofList_toList]
  rw [join, hrelative, Bool.false_or]
  split
  case isTrue => exact ⟨[], hself, by simp⟩
  case isFalse hne =>
    split
    case isTrue hslash =>
      -- the directory's last name is empty
      obtain ⟨ns, t, hsplit, hpath, hns, ht⟩ := exists_split directory.toList
      have hempty : t = [] := by
        rw [hpath] at hslash
        rcases List.eq_nil_or_concat' t with rfl | ⟨t, x, rfl⟩
        · rfl
        · rw [← List.append_assoc, List.getLast?_concat, beq_iff_eq, Option.some.injEq] at hslash
          exact absurd (by simp [hslash]) ht
      have hnames : names directory = ns.map String.ofList ++ [""] := by
        rw [names, hsplit, hempty, List.map_append]
        rfl
      refine ⟨ns.map String.ofList, ?_, fun m hm => by rw [hnames]; exact List.mem_append_left _ hm⟩
      rw [names_append hnames hn]
      simp
    case isFalse => exact ⟨names directory, names_slash directory hn, fun _ => id⟩

theorem descends_parent {path parent : String} (hpath : Descends path)
    (h : parent? path = some parent) : Descends parent := by
  rcases parent?_cases h with rfl | ⟨n, -, -, hmem⟩
  · decide
  · exact fun hdots => hpath (hmem _ hdots)

theorem descends_ancestor : ∀ (n : Nat) {path q : String}, Descends path →
    q ∈ ancestorsWithin n path → Descends q
  | 0,     path, q, hpath, hq => by
      rw [ancestorsWithin, List.mem_singleton] at hq
      rwa [hq]
  | n + 1, path, q, hpath, hq => by
      rw [ancestorsWithin] at hq
      split at hq
      case h_1 parent hparent =>
        rw [List.mem_cons] at hq
        rcases hq with rfl | hq
        · exact hpath
        · exact descends_ancestor n (descends_parent hpath hparent) hq
      case h_2 =>
        rw [List.mem_singleton] at hq
        rwa [hq]

/-! ### From the inside out -/

theorem length_trimmed_le (ns : List String) : (trimmed ns).length ≤ ns.length := by
  obtain ⟨trail, hns, -⟩ := exists_trail ns
  have hlength := congrArg List.length hns
  rw [List.length_append] at hlength
  omega

theorem length_trimmed_ofTrimmed {ns : List String} (hne : ns ≠ [])
    (h : ∀ n ∈ ns, '/' ∉ n.toList) : (trimmed (names (ofTrimmed ns))).length ≤ ns.length := by
  by_cases hroot : ns = [""]
  · rw [hroot]
    decide
  · have hpath : ofTrimmed ns = ofNames ns := by
      rw [ofTrimmed]
      exact fun h => hroot h
    rw [hpath, names_ofNames_of_slash hne h]
    exact length_trimmed_le ns

/-- How many directories there can be around a path. -/
def depth (path : String) : Nat :=
  if path = "" then 0 else (trimmed (names path)).length

theorem depth_le (path : String) : depth path ≤ (names path).length := by
  rw [depth]
  split
  · exact Nat.zero_le _
  · exact length_trimmed_le _

/-- The directory around a path has fewer directories around it. -/
theorem depth_lt_of_parent? {path parent : String} (h : parent? path = some parent) :
    depth parent < depth path := by
  have hne : path ≠ "" := by
    rintro rfl
    rw [show parent? "" = none by decide] at h
    cases h
  obtain ⟨n, ns, hnames⟩ : ∃ n ns, names path = n :: ns :=
    List.exists_cons_of_ne_nil (by simpa [names] using split_ne_nil path.toList)
  rw [depth, depth, if_neg hne]
  rcases parent?_names h with rfl | ⟨m, front, n, trail, hnames, hns, rfl⟩
  · rw [if_pos rfl, hnames, trimmed, List.length_cons]
    exact Nat.succ_pos _
  · have hmem : ∀ x ∈ trimmed (m :: front), x ∈ names path := fun x hx => by
      have hx' := mem_of_mem_trimmed hx
      rw [hnames, List.mem_cons]
      exact (List.mem_cons.mp hx').imp id (List.mem_append_left _)
    have hslash : ∀ x ∈ trimmed (m :: front), '/' ∉ x.toList := fun x hx =>
      slash_not_mem_names (hmem x hx)
    have hnil : trimmed (m :: front) ≠ [] := List.cons_ne_nil _ _
    have hle := length_trimmed_ofTrimmed hnil hslash
    have hfront := length_trimmed_le (m :: front)
    rw [hns, List.length_cons, List.length_append, List.length_singleton]
    rw [List.length_cons] at hfront
    split <;> omega

/-- Any number that is not below the depth gives the same directories around a path. -/
theorem ancestorsWithin_eq : ∀ {n k : Nat} {path : String}, depth path ≤ n → depth path ≤ k →
    ancestorsWithin n path = ancestorsWithin k path
  | n, k, path, hn, hk => by
      cases hparent : parent? path with
      | none => cases n <;> cases k <;> simp only [ancestorsWithin, hparent]
      | some parent =>
          have hlt := depth_lt_of_parent? hparent
          obtain ⟨n, rfl⟩ := Nat.exists_eq_add_one_of_ne_zero (n := n) (by omega)
          obtain ⟨k, rfl⟩ := Nat.exists_eq_add_one_of_ne_zero (n := k) (by omega)
          simp only [ancestorsWithin, hparent]
          rw [ancestorsWithin_eq (n := n) (k := k) (by omega) (by omega)]

/-- **A path comes first, and then the paths of the directories around it**, as they come for the
directory right around it. -/
theorem ancestors_eq (path : String) : ancestors path = path :: (match parent? path with
    | some parent => ancestors parent
    | none        => []) := by
  have hmore : ancestors path = ancestorsWithin (depth path + 1) path :=
    ancestorsWithin_eq (depth_le path) (Nat.le_succ _)
  rw [hmore, ancestorsWithin]
  cases hparent : parent? path with
  | none => rfl
  | some parent =>
      exact congrArg (path :: ·)
        (ancestorsWithin_eq (depth_lt_of_parent? hparent).le (depth_le parent))

end SchemaEnums.Files.Path

namespace SchemaEnums.Config
open Files

variable {d d' : Disk} {directory : Location}

/-! ### Candidates -/

/-- **The order of candidates**: the files of the directory by their names, and then the candidates
for the directory around it. -/
theorem candidates_eq (start : String) : candidates start =
    fileNames.map (fun name => ⟨Path.join start name, name⟩) ++ (match Path.parent? start with
      | some parent => candidates parent
      | none        => []) := by
  rw [candidates, Path.ancestors_eq, List.flatMap_cons]
  split <;> rfl

/-- **A candidate** stands under one of the names, in a directory that a way downwards leads to. -/
theorem candidate_place {start : String} (hstart : Path.Descends start) {c : Candidate}
    (hc : c ∈ candidates start) : Path.Descends c.path ∧
      ∃ l n, n ∈ fileNames ∧ Disk.place directory c.path = l ++ [n] := by
  obtain ⟨q, hq, hc⟩ := List.mem_flatMap.mp hc
  obtain ⟨n, hn, rfl⟩ := List.mem_map.mp hc
  have hfile : ∀ n ∈ fileNames, '/' ∉ n.toList ∧ n ≠ ".." ∧ Path.isTrivial n = false := by decide
  have hproper := hfile n hn
  obtain ⟨ns, hnames, hmem⟩ : ∃ ns, Path.names (Path.join q n) = ns ++ [n] ∧
      ∀ m ∈ ns, m ∈ Path.names q := Path.names_join hproper.1
  have hns : ".." ∉ ns := fun h => Path.descends_ancestor _ hstart hq (hmem _ h)
  constructor
  · intro hdots
    rw [hnames, List.mem_append, List.mem_singleton] at hdots
    rcases hdots with h | h
    · exact hns h
    · exact hproper.2.1 h.symm
  · refine ⟨Disk.origin directory (Path.join q n) ++ Path.stepsOf ns, n, hn, ?_⟩
    rw [Disk.place, Path.steps, hnames, Path.stepsOf_append, Path.stepsOf_cons hproper.2.2,
      List.append_assoc]
    rfl

/-- No candidate has a temporary file's name. -/
theorem ne_temporary {n : String} (hn : n ∈ fileNames) (m : String) : n ≠ m ++ ".tmp" := by
  rintro rfl
  have hlast : ∀ n ∈ fileNames, n.toList.getLast? ≠ some 'p' := by decide
  refine hlast _ hn ?_
  rw [String.toList_append, List.getLast?_append]
  rfl

/-! ### What is found -/

/-- What a candidate says depends on the file under its path only. -/
theorem load_congr {f : Formats} {c : Candidate} (h : ∀ content,
    d'.entry directory c.path = .ok (.file content) ↔
      d.entry directory c.path = .ok (.file content)) :
    load f d' directory c = load f d directory c := by
  by_cases hfile : d.isFile directory c.path = true
  · obtain ⟨content, hcontent⟩ := Disk.isFile_iff.mp hfile
    have hentry : d'.entry directory c.path = d.entry directory c.path :=
      ((h content).mpr hcontent).trans hcontent.symm
    rw [load, load, Disk.isFile, Disk.isFile, Disk.readText, Disk.readText, hentry]
  · have hfile' : ¬ d'.isFile directory c.path = true := fun hfile' => by
      obtain ⟨content, hcontent⟩ := Disk.isFile_iff.mp hfile'
      exact hfile (Disk.isFile_iff.mpr ⟨content, (h content).mp hcontent⟩)
    rw [load, load, if_neg hfile, if_neg hfile']

theorem choose_congr {f : Formats} {cs : List Candidate}
    (h : ∀ c ∈ cs, load f d' directory c = load f d directory c) :
    choose f d' directory cs = choose f d directory cs := by
  induction cs with
  | nil => rfl
  | cons c cs ih =>
      rw [List.forall_mem_cons] at h
      rw [choose, choose, h.1, ih h.2]

end SchemaEnums.Config
