import Mathlib.Data.List.TakeWhile
import SchemaEnums.Files.Path

/-!
# Files — Path

The path that a file is first written to.  `names_eq_concat` takes a path apart into what stands
before its last name and that name.  Where the last name is that of a file, the temporary path is
the path with `.tmp` at its end; only where that name is two dots and an extension, the temporary
path is that of the directory above (`temporary_cases`).  Names that say nothing may stand behind
the file's name; they are no part of the temporary path (`names_temporary_append`).
-/

namespace SchemaEnums.Files.Path

/-! ### Names -/

/-- Each name with the slash behind it. -/
def slashed (ns : List (List Char)) : List Char :=
  ns.flatMap (· ++ ['/'])

theorem split_name : ∀ {n : List Char} (rest : List Char), '/' ∉ n →
    split (n ++ '/' :: rest) = n :: split rest
  | [],     rest, _ => by simp [split]
  | c :: n, rest, h => by
      rw [List.mem_cons, not_or] at h
      rw [List.cons_append, split, if_neg (Ne.symm h.1), split_name rest h.2]

theorem split_last : ∀ {t : List Char}, '/' ∉ t → split t = [t]
  | [],     _ => rfl
  | c :: t, h => by
      rw [List.mem_cons, not_or] at h
      rw [split, if_neg (Ne.symm h.1), split_last h.2]

theorem split_slashed {t : List Char} (ht : '/' ∉ t) : ∀ {ns : List (List Char)},
    (∀ n ∈ ns, '/' ∉ n) → split (slashed ns ++ t) = ns ++ [t]
  | [],      _ => split_last ht
  | n :: ns, h => by
      have hns := split_slashed ht fun m hm => h m (List.mem_cons_of_mem n hm)
      have hsplit := split_name (slashed ns ++ t) (h n List.mem_cons_self)
      rw [hns] at hsplit
      simpa [slashed] using hsplit

/-- A text is its names with a slash behind each of them but the last. -/
theorem exists_split : ∀ s : List Char, ∃ ns t, split s = ns ++ [t] ∧ s = slashed ns ++ t ∧
    (∀ n ∈ ns, '/' ∉ n) ∧ '/' ∉ t
  | []        => ⟨[], [], rfl, rfl, by simp, by simp⟩
  | c :: rest => by
      obtain ⟨ns, t, hsplit, hrest, hns, ht⟩ := exists_split rest
      by_cases hc : c = '/'
      · refine ⟨[] :: ns, t, ?_, ?_, ?_, ht⟩
        · rw [split, if_pos hc, hsplit, List.cons_append]
        · rw [hrest, hc]; rfl
        · exact List.forall_mem_cons.mpr ⟨by simp, hns⟩
      · cases ns with
        | nil =>
            refine ⟨[], c :: t, ?_, ?_, by simp, by simpa [Ne.symm hc] using ht⟩
            · rw [split, if_neg hc, hsplit]; rfl
            · rw [hrest]; rfl
        | cons n ns =>
            refine ⟨(c :: n) :: ns, t, ?_, ?_, ?_, ht⟩
            · rw [split, if_neg hc, hsplit]; rfl
            · rw [hrest]; rfl
            · rw [List.forall_mem_cons] at hns ⊢
              exact ⟨by simpa [Ne.symm hc] using hns.1, hns.2⟩

theorem ofNames_concat (ns : List (List Char)) (t : List Char) :
    ofNames ((ns ++ [t]).map String.ofList) = String.ofList (slashed ns ++ t) := by
  apply String.toList_injective
  rw [ofNames, String.toList_intercalate, List.map_map, String.toList_ofList]
  have hid : (String.toList ∘ String.ofList) = id := funext fun _ => String.toList_ofList
  rw [hid, List.map_id]
  induction ns with
  | nil => simp [slashed]
  | cons n ns ih =>
      have hcons : ∃ m ms, ns ++ [t] = m :: ms := List.exists_cons_of_ne_nil (by simp)
      obtain ⟨m, ms, hm⟩ := hcons
      rw [hm] at ih
      rw [List.cons_append, hm, List.intercalate_cons_cons, ih]
      simp [slashed]

/-- What stands before the last name of a path, and what other names in its place give. -/
structure Front (path : String) (ns : List String) (front : List Char) : Prop where
  names   : ∀ m : List Char, '/' ∉ m → names (String.ofList (front ++ m)) = ns ++ [String.ofList m]
  ofNames : ∀ m : List Char, ofNames (ns ++ [String.ofList m]) = String.ofList (front ++ m)

theorem names_eq_concat {path n : String} {ns : List String} (h : names path = ns ++ [n]) :
    ∃ front, path = String.ofList (front ++ n.toList) ∧ '/' ∉ n.toList ∧ Front path ns front := by
  obtain ⟨ms, t, hsplit, hpath, hms, ht⟩ := exists_split path.toList
  rw [names, hsplit, List.map_append, List.map_singleton] at h
  obtain ⟨rfl, hlast⟩ := List.append_inj' h rfl
  obtain rfl : String.ofList t = n := by simpa using hlast
  rw [String.toList_ofList]
  refine ⟨slashed ms, by rw [← hpath, String.ofList_toList], ht, fun m hm => ?_, fun m => ?_⟩
  · rw [names, String.toList_ofList, split_slashed hm hms, List.map_append, List.map_singleton]
  · rw [← ofNames_concat, List.map_append, List.map_singleton]

/-- What is added to a path is added to its last name. -/
theorem names_append {path n : String} {ns : List String} (h : names path = ns ++ [n])
    {suffix : String} (hs : '/' ∉ suffix.toList) :
    names (path ++ suffix) = ns ++ [n ++ suffix] := by
  obtain ⟨front, hpath, hslash, hfront⟩ := names_eq_concat h
  have hnames := hfront.names (n.toList ++ suffix.toList) (by simp [hslash, hs])
  have happend : path ++ suffix = String.ofList (front ++ (n.toList ++ suffix.toList)) := by
    apply String.toList_injective
    rw [String.toList_append, hpath, String.toList_ofList, String.toList_ofList, List.append_assoc]
  have hlast : n ++ suffix = String.ofList (n.toList ++ suffix.toList) := by
    apply String.toList_injective
    rw [String.toList_append, String.toList_ofList]
  rw [happend, hnames, hlast]

/-! ### File names -/

/-- The name of a file: neither trivial nor that of the directory above. -/
def IsFileName (n : String) : Prop := (isTrivial n || n == "..") = false

instance (n : String) : Decidable (IsFileName n) :=
  inferInstanceAs (Decidable (_ = false))

theorem IsFileName.not_isTrivial {n : String} (hn : IsFileName n) : isTrivial n = false :=
  (Bool.or_eq_false_iff.mp hn).1

theorem IsFileName.path_ne_empty {path n : String} {ns : List String} (hn : IsFileName n)
    (h : names path = ns ++ [n]) : path ≠ "" := by
  rintro rfl
  have hlast : [] ++ [""] = ns ++ [n] := h
  rw [← List.singleton_inj.mp (List.append_inj' hlast rfl).2] at hn
  exact absurd hn (by decide)

/-- Names that end in no trivial one are kept whole. -/
theorem trimmed_concat {ns : List String} {n : String} (h : isTrivial n = false) :
    trimmed (ns ++ [n]) = ns ++ [n] := by
  cases ns with
  | nil => rfl
  | cons m ns =>
      rw [List.cons_append, trimmed, List.reverse_append, List.reverse_singleton,
        List.singleton_append, List.dropWhile_cons_of_neg (by simp [h])]
      simp

theorem trimmed_append {ns trail : List String} {n : String} (hn : isTrivial n = false)
    (htrail : ∀ m ∈ trail, isTrivial m = true) : trimmed (ns ++ n :: trail) = ns ++ [n] := by
  have hdrop : ∀ ms : List String, ((ms ++ trail).reverse.dropWhile isTrivial).reverse =
      (ms.reverse.dropWhile isTrivial).reverse := fun ms => by
    rw [List.reverse_append, List.dropWhile_append_of_pos fun m hm =>
      htrail m (List.mem_reverse.mp hm)]
  cases ns with
  | nil =>
      rw [List.nil_append, trimmed]
      have h := hdrop []
      rw [List.nil_append] at h
      rw [h]
      rfl
  | cons m ns =>
      have h : trimmed (m :: ns ++ [n]) = m :: ns ++ [n] := trimmed_concat hn
      rw [List.cons_append, trimmed] at h ⊢
      rw [List.append_cons, hdrop, h, List.cons_append]

/-- The file name stands before names that say nothing. -/
theorem fileName?_append {path n : String} {ns trail : List String}
    (h : names path = ns ++ n :: trail) (hn : IsFileName n)
    (htrail : ∀ m ∈ trail, isTrivial m = true) : fileName? path = some n := by
  have hsays := Bool.or_eq_false_iff.mp hn
  simp [fileName?, h, trimmed_append hsays.1 htrail, hsays.1, hsays.2]

theorem upToStem?_append {path n : String} {ns trail : List String}
    (h : names path = ns ++ n :: trail) (hn : IsFileName n)
    (htrail : ∀ m ∈ trail, isTrivial m = true) :
    upToStem? path = some (ofNames (ns ++ [String.ofList (cut n.toList).1])) := by
  simp [upToStem?, fileName?_append h hn htrail, h, trimmed_append hn.not_isTrivial htrail]

theorem fileName?_eq {path n : String} {ns : List String} (h : names path = ns ++ [n])
    (hn : IsFileName n) : fileName? path = some n :=
  fileName?_append h hn (List.forall_mem_nil _)

theorem upToStem?_eq {path n : String} {ns : List String} (h : names path = ns ++ [n])
    (hn : IsFileName n) :
    upToStem? path = some (ofNames (ns ++ [String.ofList (cut n.toList).1])) :=
  upToStem?_append h hn (List.forall_mem_nil _)

/-! ### Temporary paths -/

/-- A name with a dot is cut at its last one, unless nothing stands before that or the name is two
dots. -/
theorem cut_dot {before after : List Char} (h : '.' ∉ after) :
    cut (before ++ '.' :: after) =
      if before ++ '.' :: after = ['.', '.'] ∨ before = [] then (before ++ '.' :: after, none)
      else (before, some after) := by
  have hafter : ((before ++ '.' :: after).reverse.takeWhile (· != '.')).reverse = after := by
    have hall : ∀ x ∈ after.reverse, (x != '.') = true := fun x hx => by
      rw [bne_iff_ne]
      rintro rfl
      exact h (List.mem_reverse.mp hx)
    rw [List.reverse_append, List.reverse_cons, List.append_assoc,
      List.takeWhile_append_of_pos hall, List.singleton_append,
      List.takeWhile_cons_of_neg (by simp), List.append_nil, List.reverse_reverse]
  have hbefore : (before ++ '.' :: after).take
      ((before ++ '.' :: after).length - after.length - 1) = before := by
    have hlength : (before ++ '.' :: after).length - after.length - 1 = before.length := by
      rw [List.length_append, List.length_cons]
      omega
    rw [hlength, List.take_left]
  have hlength : (after.length == (before ++ '.' :: after).length) = false := by
    rw [beq_eq_false_iff_ne, List.length_append, List.length_cons]
    omega
  simp only [cut, hafter, hbefore, hlength, Bool.or_false, Bool.or_eq_true, beq_iff_eq,
    List.isEmpty_iff]

theorem cut_of_not_mem {n : List Char} (h : '.' ∉ n) : cut n = (n, none) := by
  have hall : ∀ x ∈ n.reverse, (x != '.') = true := fun x hx => by
    rw [bne_iff_ne]
    rintro rfl
    exact h (List.mem_reverse.mp hx)
  have hafter : (n.reverse.takeWhile (· != '.')).reverse = n := by
    rw [List.takeWhile_eq_self_iff.mpr hall, List.reverse_reverse]
  simp [cut, hafter]

theorem eq_append_lastDot {n : List Char} (h : '.' ∈ n) :
    ∃ before after, n = before ++ '.' :: after ∧ '.' ∉ after := by
  obtain ⟨u, v, huv, hu⟩ := List.eq_append_cons_of_mem (List.mem_reverse.mpr h)
  refine ⟨v.reverse, u.reverse, ?_, by simpa using hu⟩
  rw [← List.reverse_reverse n, huv]
  simp

/-- A name without an extension stays whole. -/
theorem cut_fst_of_none {n : List Char} (h : (cut n).2 = none) : (cut n).1 = n := by
  by_cases hdot : '.' ∈ n
  · obtain ⟨before, after, rfl, hafter⟩ := eq_append_lastDot hdot
    rw [cut_dot hafter] at h ⊢
    split at h
    case isTrue hcond => rw [if_pos hcond]
    case isFalse => cases h
  · rw [cut_of_not_mem hdot]

theorem cut_of_some {n after : List Char} (h : (cut n).2 = some after) :
    ∃ before, n = before ++ '.' :: after ∧ before ≠ [] ∧ '.' ∉ after := by
  by_cases hdot : '.' ∈ n
  · obtain ⟨before, after', rfl, hafter⟩ := eq_append_lastDot hdot
    rw [cut_dot hafter] at h
    split at h
    case isTrue => cases h
    case isFalse hcond =>
      cases h
      exact ⟨before, rfl, fun hnil => hcond (.inr hnil), hafter⟩
  · rw [cut_of_not_mem hdot] at h
    cases h

theorem extension?_eq {path n : String} {ns : List String} (h : names path = ns ++ [n])
    (hn : IsFileName n) : extension? path = (cut n.toList).2.map String.ofList := by
  simp [extension?, fileName?_eq h hn]

theorem isFileName_ofList_iff {n : List Char} :
    IsFileName (String.ofList n) ↔ n ≠ [] ∧ n ≠ ['.'] ∧ n ≠ ['.', '.'] := by
  have h : ∀ m : String, String.ofList n = m ↔ n = m.toList := fun m =>
    ⟨fun h => by rw [← h, String.toList_ofList], fun h => by rw [h, String.ofList_toList]⟩
  simp only [IsFileName, isTrivial, Bool.or_eq_false_iff, beq_eq_false_iff_ne, ne_eq, h, and_assoc]
  exact Iff.rfl

/-- What is left of a path that ends in a dot when its extension is taken off. -/
theorem upToStem?_dot {path : String} {ns : List String} {front before : List Char}
    (hfront : Front path ns front) (hslash : '/' ∉ before) (hne : before ≠ [])
    (hdot : before ≠ ['.']) :
    upToStem? (String.ofList (front ++ (before ++ ['.']))) =
      some (String.ofList (front ++ before)) := by
  have hdots : before ++ ['.'] ≠ ['.', '.'] := fun h =>
    hdot (List.append_inj_left' (h : before ++ ['.'] = ['.'] ++ ['.']) rfl)
  have hname : IsFileName (String.ofList (before ++ ['.'])) :=
    isFileName_ofList_iff.mpr ⟨by simp, fun h => hne (by simpa using h), hdots⟩
  have hnames := hfront.names (before ++ ['.']) (by simpa using hslash)
  rw [upToStem?_eq hnames hname, String.toList_ofList, cut_dot (by simp),
    if_neg (not_or.mpr ⟨hdots, hne⟩), hfront.ofNames]

/-- The path without as many characters at its end as its extension has. -/
def shortened (path : String) : String :=
  String.ofList (path.toList.take (path.length - ((extension? path).getD "").length))

theorem shortened_of_none {path : String} (h : extension? path = none) : shortened path = path := by
  rw [shortened, h, Option.getD_none, String.length_empty, Nat.sub_zero, ← String.length_toList,
    List.take_length, String.ofList_toList]

/-- An extension at the end of a path is taken off, and the dot before it stays. -/
theorem shortened_of_some {path : String} {front after : List Char}
    (h : extension? path = some (String.ofList after)) (hpath : path.toList = front ++ '.' :: after) :
    shortened path = String.ofList (front ++ ['.']) := by
  have hlength : path.length - (String.ofList after).length = (front ++ ['.']).length := by
    rw [← String.length_toList, hpath, String.length_ofList]
    simp only [List.length_append, List.length_cons, List.length_nil]
    omega
  rw [shortened, h, Option.getD_some, hlength, hpath, List.append_cons front '.' after,
    List.take_left]

theorem withExtension_of_stem {path extension stem : String}
    (h : upToStem? (shortened path) = some stem) :
    withExtension path extension = stem ++ "." ++ extension := by
  rw [shortened] at h
  unfold withExtension
  simp only [h]

theorem withExtension_of_no_stem {path extension : String}
    (h : upToStem? (shortened path) = none) : withExtension path extension = shortened path := by
  rw [shortened] at h ⊢
  unfold withExtension
  simp only [h]

theorem temporary_of_none {path : String} (h : extension? path = none) :
    temporary path = withExtension path "tmp" := by
  rw [temporary, h]

theorem temporary_of_some {path e : String} (h : extension? path = some e) :
    temporary path = withExtension path (e ++ ".tmp") := by
  rw [temporary, h]

/-- Where nothing is taken off, the new extension follows the whole name. -/
theorem temporary_of_no_extension {path n : String} {ns : List String} (h : names path = ns ++ [n])
    (hn : IsFileName n) (hcut : (cut n.toList).2 = none) : temporary path = path ++ ".tmp" := by
  obtain ⟨front, hpath, -, hfront⟩ := names_eq_concat h
  have hextension := extension?_eq h hn
  rw [hcut, Option.map_none] at hextension
  have hstem : upToStem? path = some path := by
    rw [upToStem?_eq h hn, cut_fst_of_none hcut, hfront.ofNames, ← hpath]
  rw [temporary_of_none hextension,
    withExtension_of_stem (by rw [shortened_of_none hextension, hstem]), String.append_assoc]
  rfl

/-- The name is two dots and an extension. -/
def IsDotted (n : String) : Prop :=
  ∃ e : List Char, n.toList = '.' :: '.' :: e ∧ e ≠ [] ∧ '.' ∉ e

instance : DecidablePred IsDotted := fun n =>
  decidable_of_iff (n.toList.take 2 = ['.', '.'] ∧ n.toList.drop 2 ≠ [] ∧ '.' ∉ n.toList.drop 2) (by
    constructor
    · rintro ⟨htake, he⟩
      exact ⟨n.toList.drop 2, (List.take_append_drop 2 n.toList).symm.trans (htake ▸ rfl), he⟩
    · rintro ⟨e, hn, he⟩
      rw [hn]
      exact ⟨rfl, he⟩)

theorem cut_of_isDotted {n : String} (h : IsDotted n) :
    ∃ e, n.toList = '.' :: '.' :: e ∧ '.' ∉ e ∧ (cut n.toList).2 = some e := by
  obtain ⟨e, hn, hne, hdot⟩ := h
  have hcut : cut (['.'] ++ '.' :: e) = (['.'], some e) := by
    rw [cut_dot hdot, if_neg (by simp [hne])]
  rw [List.singleton_append, ← hn] at hcut
  exact ⟨e, hn, hdot, by rw [hcut]⟩

/-- The temporary path of a file is its path with `.tmp` at the end, unless its name is two dots and
an extension. -/
theorem temporary_of_not_isDotted {path n : String} {ns : List String} (h : names path = ns ++ [n])
    (hn : IsFileName n) (hdotted : ¬ IsDotted n) : temporary path = path ++ ".tmp" := by
  obtain ⟨front, hpath, hslash, hfront⟩ := names_eq_concat h
  have hextension := extension?_eq h hn
  cases hcut : (cut n.toList).2 with
  | none => exact temporary_of_no_extension h hn hcut
  | some after =>
      rw [hcut, Option.map_some] at hextension
      obtain ⟨before, hn', hne, hdot⟩ := cut_of_some hcut
      have hbefore : before ≠ ['.'] := by
        rintro rfl
        have hafter : after ≠ [] := by
          rintro rfl
          obtain rfl : n = ".." := String.toList_injective hn'
          exact absurd hn (by decide)
        exact hdotted ⟨after, hn', hafter, hdot⟩
      have hsplit : path.toList = front ++ before ++ '.' :: after := by
        rw [hpath, hn', String.toList_ofList, List.append_assoc]
      have hleft : shortened path = String.ofList (front ++ (before ++ ['.'])) := by
        rw [shortened_of_some hextension hsplit, List.append_assoc]
      have hstem := upToStem?_dot hfront (fun hmem => hslash (by simp [hn', hmem])) hne hbefore
      rw [temporary_of_some hextension, withExtension_of_stem (by rw [hleft, hstem])]
      apply String.toList_injective
      rw [hpath, hn']
      simp

/-- Where the name is two dots and an extension, the dots are left when that is taken off, and they
lead to the directory above. -/
theorem names_temporary_of_isDotted {path n : String} {ns : List String}
    (h : names path = ns ++ [n]) (hn : IsFileName n) (hdotted : IsDotted n) :
    names (temporary path) = ns ++ [".."] := by
  obtain ⟨front, hpath, -, hfront⟩ := names_eq_concat h
  obtain ⟨e, hn', hdot, hcut⟩ := cut_of_isDotted hdotted
  have hextension := extension?_eq h hn
  rw [hcut, Option.map_some] at hextension
  have hsplit : path.toList = (front ++ ['.']) ++ '.' :: e := by
    rw [hpath, hn', String.toList_ofList, List.append_assoc, List.singleton_append]
  have hleft : shortened path = String.ofList (front ++ ['.', '.']) := by
    rw [shortened_of_some hextension hsplit, List.append_assoc, List.singleton_append]
  have hnames := hfront.names ['.', '.'] (by simp)
  have hstem : upToStem? (shortened path) = none := by
    rw [hleft, upToStem?, fileName?, hnames, trimmed_concat rfl, List.getLast?_concat]
    rfl
  rw [temporary_of_some hextension, withExtension_of_no_stem hstem, hleft]
  exact hnames

/-- **The temporary path of a file** is its path with `.tmp` at the end, or leads to the directory
above. -/
theorem temporary_cases {path n : String} {ns : List String} (h : names path = ns ++ [n])
    (hn : IsFileName n) :
    temporary path = path ++ ".tmp" ∨ names (temporary path) = ns ++ [".."] := by
  by_cases hdotted : IsDotted n
  · exact .inr (names_temporary_of_isDotted h hn hdotted)
  · exact .inl (temporary_of_not_isDotted h hn hdotted)

/-! ### Names behind the last one -/

/-- Each name with the slash before it. -/
def tailText (trail : List (List Char)) : List Char :=
  trail.flatMap ('/' :: ·)

theorem slashed_tailText (trail : List (List Char)) : ∀ (ns : List (List Char)) (m : List Char),
    slashed ns ++ (m ++ tailText trail) =
      slashed (ns ++ (m :: trail).dropLast) ++ (m :: trail).getLast (by simp) := by
  induction trail with
  | nil => intro ns m; simp [tailText]
  | cons a trail ih =>
      intro ns m
      have h := ih (ns ++ [m]) a
      rw [List.append_assoc ns] at h
      calc slashed ns ++ (m ++ tailText (a :: trail))
          = slashed (ns ++ [m]) ++ (a ++ tailText trail) := by simp [slashed, tailText]
        _ = _ := h

/-- A text and its names, one of which is set off. -/
theorem split_eq_iff {s : List Char} {ns trail : List (List Char)} {m : List Char} :
    split s = ns ++ m :: trail ↔ s = slashed ns ++ (m ++ tailText trail) ∧
      ∀ n ∈ ns ++ m :: trail, '/' ∉ n := by
  have hlast : ns ++ m :: trail =
      (ns ++ (m :: trail).dropLast) ++ [(m :: trail).getLast (by simp)] := by
    rw [List.append_assoc, List.dropLast_concat_getLast]
  rw [slashed_tailText]
  constructor
  · intro h
    obtain ⟨ns', t, hsplit, hs, hns, ht⟩ := exists_split s
    rw [hsplit, hlast] at h
    obtain ⟨rfl, hlast'⟩ := List.append_inj' h rfl
    obtain rfl := List.singleton_inj.mp hlast'
    refine ⟨hs, fun n hn => ?_⟩
    rw [hlast, List.mem_append, List.mem_singleton] at hn
    rcases hn with hn | rfl
    · exact hns n hn
    · exact ht
  · rintro ⟨rfl, hns⟩
    rw [hlast] at hns ⊢
    exact split_slashed (hns _ (by simp)) fun n hn => hns n (List.mem_append_left _ hn)

/-- A name that says nothing, as characters. -/
theorem isTrivial_ofList_iff {m : List Char} :
    isTrivial (String.ofList m) = true ↔ m = [] ∨ m = ['.'] := by
  have h : ∀ n : String, String.ofList m = n ↔ m = n.toList := fun n =>
    ⟨fun h => by rw [← h, String.toList_ofList], fun h => by rw [h, String.ofList_toList]⟩
  simp only [isTrivial, Bool.or_eq_true, beq_iff_eq, h]
  exact Iff.rfl

/-- What is left of names that say nothing says nothing. -/
theorem take_tailText : ∀ {trail : List (List Char)} (k : Nat),
    (∀ m ∈ trail, m = [] ∨ m = ['.']) →
    ∃ trail', (tailText trail).take k = tailText trail' ∧ ∀ m ∈ trail', m = [] ∨ m = ['.']
  | [],         k,     _ => ⟨[], by simp [tailText], by simp⟩
  | _ :: _,     0,     _ => ⟨[], by simp [tailText], by simp⟩
  | a :: trail, k + 1, h => by
      rw [List.forall_mem_cons] at h
      have hcons : tailText (a :: trail) = '/' :: (a ++ tailText trail) := rfl
      rw [hcons, List.take_succ_cons, List.take_append]
      rcases h.1 with rfl | rfl
      · obtain ⟨trail', htake, htrivial⟩ := take_tailText k h.2
        exact ⟨[] :: trail', by simpa [tailText] using htake,
          List.forall_mem_cons.mpr ⟨.inl rfl, htrivial⟩⟩
      · cases k with
        | zero => exact ⟨[[]], by simp [tailText], by simp⟩
        | succ k =>
            obtain ⟨trail', htake, htrivial⟩ := take_tailText k h.2
            exact ⟨['.'] :: trail', by simpa [tailText] using htake,
              List.forall_mem_cons.mpr ⟨.inr rfl, htrivial⟩⟩

theorem split_ne_nil (s : List Char) : split s ≠ [] := by
  obtain ⟨ns, t, h, -⟩ := exists_split s
  simp [h]

/-- A path and its names, one of which is set off. -/
theorem names_eq_iff {path : String} {ns trail : List (List Char)} {m : List Char} :
    names path = (ns ++ m :: trail).map String.ofList ↔
      path = String.ofList (slashed ns ++ (m ++ tailText trail)) ∧
        ∀ n ∈ ns ++ m :: trail, '/' ∉ n := by
  have hpath : ∀ s : List Char, path = String.ofList s ↔ path.toList = s := fun s =>
    ⟨fun h => by rw [h, String.toList_ofList], fun h => by rw [← h, String.ofList_toList]⟩
  rw [names, List.map_inj_right fun a b h => String.ofList_injective h, hpath, split_eq_iff]

theorem exists_ofList (ns : List String) : ∃ ms : List (List Char), ns = ms.map String.ofList :=
  ⟨ns.map String.toList, by simp [Function.comp_def]⟩

/-- What is left when an extension is taken off a path that goes on behind its file name: the
extension or a part of it stays, and the stem is the same. -/
theorem upToStem?_take {ns trail : List (List Char)} {before after : List Char}
    (hslash : ∀ n ∈ ns ++ (before ++ '.' :: after) :: trail, '/' ∉ n)
    (htrail : ∀ m ∈ trail, m = [] ∨ m = ['.']) (hdot : '.' ∉ after) (hne : before ≠ [])
    (hdots : before ++ '.' :: after ≠ ['.', '.']) {k : Nat}
    (hk : (slashed ns ++ (before ++ ['.'])).length < k) :
    upToStem? (String.ofList
      ((slashed ns ++ ((before ++ '.' :: after) ++ tailText trail)).take k)) =
        some (ofNames (ns.map String.ofList ++ [String.ofList before])) := by
  obtain ⟨j, rfl⟩ := Nat.exists_eq_add_of_lt hk
  obtain ⟨trail', htake, htrivial⟩ := take_tailText (j + 1 - after.length) htrail
  have hsplit : slashed ns ++ ((before ++ '.' :: after) ++ tailText trail) =
      (slashed ns ++ (before ++ ['.'])) ++ (after ++ tailText trail) := by simp
  have hleft : (slashed ns ++ (before ++ ['.'])) ++ (after.take (j + 1) ++ tailText trail') =
      slashed ns ++ ((before ++ '.' :: after.take (j + 1)) ++ tailText trail') := by simp
  rw [hsplit, Nat.add_assoc, List.take_length_add_append, List.take_append, htake, hleft]
  -- something of the extension is left, if there was one
  have hdots' : before ++ '.' :: after.take (j + 1) ≠ ['.', '.'] := fun h => by
    cases after with
    | nil => exact hdots h
    | cons x after =>
        have hlength := congrArg List.length h
        have hpos := List.length_pos_iff.mpr hne
        simp only [List.take_succ_cons, List.length_append, List.length_cons,
          List.length_nil] at hlength
        omega
  have hslash' : ∀ n ∈ ns ++ (before ++ '.' :: after.take (j + 1)) :: trail', '/' ∉ n := by
    intro n hn
    rw [List.mem_append, List.mem_cons] at hn
    rcases hn with hn | rfl | hn
    · exact hslash n (List.mem_append_left _ hn)
    · have hname := hslash (before ++ '.' :: after) (by simp)
      simp only [List.mem_append, List.mem_cons, not_or] at hname ⊢
      exact ⟨hname.1, hname.2.1, fun h => hname.2.2 (List.mem_of_mem_take h)⟩
    · rcases htrivial n hn with rfl | rfl <;> decide
  have hnames := names_eq_iff.mpr ⟨rfl, hslash'⟩
  rw [List.map_append, List.map_cons] at hnames
  have hfile : IsFileName (String.ofList (before ++ '.' :: after.take (j + 1))) :=
    isFileName_ofList_iff.mpr ⟨by simp, fun h => hne (by
      have hlength := congrArg List.length h
      rw [List.length_append, List.length_cons, List.length_singleton] at hlength
      exact List.length_eq_zero_iff.mp (by omega)), hdots'⟩
  rw [upToStem?_append hnames hfile (by simpa [isTrivial_ofList_iff] using htrivial),
    String.toList_ofList, cut_dot fun h => hdot (List.mem_of_mem_take h),
    if_neg (not_or.mpr ⟨hdots', hne⟩)]

/-- Names without slashes, set side by side, are the names of a path. -/
theorem names_ofNames {ns : List (List Char)} {m : List Char} (hns : ∀ n ∈ ns, '/' ∉ n)
    (hm : '/' ∉ m) : names (ofNames ((ns ++ [m]).map String.ofList)) =
      (ns ++ [m]).map String.ofList := by
  rw [ofNames_concat, names, String.toList_ofList, split_slashed hm hns]

/-- **The temporary path of a path that goes on behind its file name** is its path up to there with
`.tmp` at the end. -/
theorem names_temporary_append {path n : String} {ns trail : List String}
    (h : names path = ns ++ n :: trail) (hn : IsFileName n) (hne : trail ≠ [])
    (htrail : ∀ m ∈ trail, isTrivial m = true) :
    names (temporary path) = ns ++ [n ++ ".tmp"] := by
  obtain ⟨ns, rfl⟩ := exists_ofList ns
  obtain ⟨trail, rfl⟩ := exists_ofList trail
  obtain ⟨m, rfl⟩ : ∃ m, n = String.ofList m := ⟨n.toList, String.ofList_toList.symm⟩
  have hnames : names path = (ns ++ m :: trail).map String.ofList := by simpa using h
  obtain ⟨hpath, hslash⟩ := names_eq_iff.mp hnames
  have hns : ∀ x ∈ ns, '/' ∉ x := fun x hx => hslash x (List.mem_append_left _ hx)
  have hm : '/' ∉ m := hslash m (by simp)
  have hextension : extension? path = (cut m).2.map String.ofList := by
    simp [extension?, fileName?_append h hn htrail]
  -- without an extension the stem is the whole name and `.tmp` is added to it; with one, the
  -- extension is taken off the end of the path, where it need not stand, and put back
  cases hcut : (cut m).2 with
  | none =>
      rw [hcut, Option.map_none] at hextension
      have hstem := upToStem?_append h hn htrail
      rw [String.toList_ofList, cut_fst_of_none hcut] at hstem
      have hnames := names_ofNames hns hm
      rw [List.map_append, List.map_singleton] at hnames
      rw [temporary_of_none hextension,
        withExtension_of_stem (by rw [shortened_of_none hextension, hstem]), String.append_assoc]
      exact names_append hnames (by decide)
  | some after =>
      rw [hcut, Option.map_some] at hextension
      obtain ⟨before, rfl, hbefore, hdot⟩ := cut_of_some hcut
      have hchars : path.toList = slashed ns ++ ((before ++ '.' :: after) ++ tailText trail) := by
        rw [hpath, String.toList_ofList]
      -- what is taken off ends behind the extension, so the stem is not touched
      have htail : 0 < (tailText trail).length := by
        cases trail with
        | nil => exact absurd rfl hne
        | cons a trail => exact Nat.succ_pos _
      have hk : (slashed ns ++ (before ++ ['.'])).length <
          path.length - (String.ofList after).length := by
        rw [← String.length_toList, hchars, String.length_ofList]
        simp only [List.length_append, List.length_cons, List.length_nil]
        omega
      have hstem := upToStem?_take hslash (by simpa [isTrivial_ofList_iff] using htrail) hdot
        hbefore (isFileName_ofList_iff.mp hn).2.2 hk
      rw [← hchars] at hstem
      have hnames := names_ofNames hns fun h : '/' ∈ before => hm (by simp [h])
      rw [List.map_append, List.map_singleton] at hnames
      have hslash' : '/' ∉ ("." ++ (String.ofList after ++ ".tmp")).toList := by
        simp only [List.mem_append, List.mem_cons, not_or] at hm
        simp [hm.2.2]
      have hname : String.ofList before ++ ("." ++ (String.ofList after ++ ".tmp")) =
          String.ofList (before ++ '.' :: after) ++ ".tmp" := by
        apply String.toList_injective
        simp
      rw [temporary_of_some hextension,
        withExtension_of_stem (by rw [shortened, hextension, Option.getD_some, hstem]),
        String.append_assoc, names_append hnames hslash', hname]

/-- **The temporary path stands beside the path**, under the name of the file with `.tmp` at its end,
or leads to the directory above. -/
theorem names_temporary {path n : String} {ns trail : List String}
    (h : names path = ns ++ n :: trail) (hn : IsFileName n)
    (htrail : ∀ m ∈ trail, isTrivial m = true) :
    names (temporary path) = ns ++ [n ++ ".tmp"] ∨ names (temporary path) = ns ++ [".."] := by
  by_cases hne : trail = []
  · rw [hne] at h
    rcases temporary_cases h hn with htemporary | hdots
    · exact .inl (by rw [htemporary, names_append h (by decide)])
    · exact .inr hdots
  · exact .inl (names_temporary_append h hn hne htrail)

/-- A path without a file name is its own temporary path. -/
theorem temporary_of_no_fileName {path : String} (h : fileName? path = none) :
    temporary path = path := by
  have hextension : extension? path = none := by rw [extension?, h, Option.bind_none]
  have hleft := shortened_of_none hextension
  have hstem : upToStem? (shortened path) = none := by rw [hleft, upToStem?, h, Option.map_none]
  rw [temporary_of_none hextension, withExtension_of_no_stem hstem, hleft]

end SchemaEnums.Files.Path
