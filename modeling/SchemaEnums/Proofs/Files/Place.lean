import Mathlib.Data.List.Basic
import Mathlib.Data.List.Induction
import Mathlib.Tactic.NthRewrite
import SchemaEnums.Proofs.Files.Disk

/-!
# Files — Place

Paths that lead downwards.  Without two dots in it a path leads to one place whatever the disk
holds: the `place` that its steps name.  So what it gives depends on the places on the way there
only, and stays as it is when directories are made around the path (`MadeBefore.entry_eq`).

A disk `IsTree` when whatever is there stands in a directory.
-/

namespace SchemaEnums.Files

namespace Path

/-! ### Steps -/

/-- The path leads downwards: none of its names is two dots. -/
def Descends (path : String) : Prop := ".." ∉ names path

instance (path : String) : Decidable (Descends path) :=
  inferInstanceAs (Decidable (_ ∉ _))

/-- The names that lead further. -/
def stepsOf (ns : List String) : List String := ns.filter (!isTrivial ·)

/-- The names of a path that lead further. -/
def steps (path : String) : List String := stepsOf (names path)

theorem stepsOf_append (ns ms : List String) : stepsOf (ns ++ ms) = stepsOf ns ++ stepsOf ms :=
  List.filter_append ..

theorem stepsOf_cons_of_trivial {n : String} (hn : isTrivial n = true) (ns : List String) :
    stepsOf (n :: ns) = stepsOf ns := by
  rw [stepsOf, List.filter_cons_of_neg (by simp [hn]), stepsOf]

theorem stepsOf_cons {n : String} (hn : isTrivial n = false) (ns : List String) :
    stepsOf (n :: ns) = n :: stepsOf ns := by
  rw [stepsOf, List.filter_cons_of_pos (by simp [hn]), stepsOf]

/-- A file name is one step. -/
theorem stepsOf_concat {n : String} (hn : IsFileName n) (ns : List String) :
    stepsOf (ns ++ [n]) = stepsOf ns ++ [n] := by
  rw [stepsOf_append, stepsOf_cons hn.not_isTrivial]
  rfl

theorem stepsOf_eq_nil {ns : List String} (h : ∀ n ∈ ns, isTrivial n = true) : stepsOf ns = [] :=
  List.filter_eq_nil_iff.mpr fun n hn => by simp [h n hn]

/-- Behind the names that are left, there were names that say nothing. -/
theorem exists_trail (ns : List String) :
    ∃ trail, ns = trimmed ns ++ trail ∧ ∀ m ∈ trail, isTrivial m = true := by
  cases ns with
  | nil => exact ⟨[], rfl, by simp⟩
  | cons n ns =>
      refine ⟨(ns.reverse.takeWhile isTrivial).reverse, ?_, fun m hm =>
        List.all_eq_true.mp List.all_takeWhile m (List.mem_reverse.mp hm)⟩
      rw [trimmed, List.cons_append, ← List.reverse_append, List.takeWhile_append_dropWhile,
        List.reverse_reverse]

theorem stepsOf_trimmed (ns : List String) : stepsOf (trimmed ns) = stepsOf ns := by
  obtain ⟨trail, hns, htrail⟩ := exists_trail ns
  nth_rw 2 [hns]
  rw [stepsOf_append, stepsOf_eq_nil htrail, List.append_nil]

theorem mem_of_mem_trimmed {ns : List String} {n : String} (h : n ∈ trimmed ns) : n ∈ ns := by
  obtain ⟨trail, hns, -⟩ := exists_trail ns
  rw [hns]
  exact List.mem_append_left _ h

/-- Of two or more names that are left the last one says something. -/
theorem isTrivial_of_trimmed {ns ms : List String} {n : String} (h : trimmed ns = ms ++ [n])
    (hne : ms ≠ []) : isTrivial n = false := by
  cases ns with
  | nil => simp [trimmed] at h
  | cons x ns =>
      obtain ⟨y, ms, rfl⟩ := List.exists_cons_of_ne_nil hne
      rw [trimmed, List.cons_append, List.cons.injEq] at h
      have hhead : (ns.reverse.dropWhile isTrivial).head? = some n := by
        rw [← List.getLast?_reverse, h.2, List.getLast?_concat]
      have hnot := List.head?_dropWhile_not isTrivial ns.reverse
      rw [hhead] at hnot
      simpa using hnot

/-! ### Absolute paths -/

theorem isAbsolute_iff {path : String} :
    isAbsolute path = true ↔ ∃ n ns, names path = "" :: n :: ns := by
  rw [isAbsolute, names]
  cases path.toList with
  | nil => simp [split]
  | cons c rest =>
      obtain ⟨m, ms, hm⟩ := List.exists_cons_of_ne_nil (split_ne_nil rest)
      by_cases hc : c = '/'
      · simp [split, hc, hm]
      · simp [split, hc, hm]

/-- Paths that begin with the same two names are alike absolute. -/
theorem isAbsolute_eq {path path' : String} {m n n' : String} {ns ns' : List String}
    (h : names path = m :: n :: ns) (h' : names path' = m :: n' :: ns') :
    isAbsolute path = isAbsolute path' := by
  rw [Bool.eq_iff_iff, isAbsolute_iff, isAbsolute_iff, h, h']
  simp

theorem not_isAbsolute {path n : String} (h : names path = [n]) : isAbsolute path = false := by
  rw [← Bool.not_eq_true, isAbsolute_iff, h]
  simp

/-! ### The directory around a path -/

theorem names_ofNames_of_slash {ns : List String} (hne : ns ≠ [])
    (h : ∀ n ∈ ns, '/' ∉ n.toList) : names (ofNames ns) = ns := by
  obtain ⟨ms, rfl⟩ := exists_ofList ns
  have hms : ∀ m ∈ ms, '/' ∉ m := fun m hm => by
    simpa using h (String.ofList m) (List.mem_map_of_mem hm)
  have hne' : ms ≠ [] := fun h => hne (by rw [h]; rfl)
  rw [← List.dropLast_concat_getLast hne'] at hms ⊢
  exact names_ofNames (fun n hn => hms n (List.mem_append_left _ hn)) (hms _ (by simp))

theorem slash_not_mem_names {path n : String} (h : n ∈ names path) : '/' ∉ n.toList := by
  obtain ⟨ns, t, hsplit, -, hns, ht⟩ := exists_split path.toList
  rw [names, hsplit, List.mem_map] at h
  obtain ⟨m, hm, rfl⟩ := h
  rw [String.toList_ofList]
  rw [List.mem_append, List.mem_singleton] at hm
  rcases hm with hm | rfl
  · exact hns m hm
  · exact ht

/-- The path of some names; a single empty name is the root. -/
def ofTrimmed : List String → String
  | [""] => "/"
  | ns   => ofNames ns

theorem some_ofTrimmed (ns : List String) : some (ofTrimmed ns) =
    match ns with
    | [""] => some "/"
    | ns   => some (ofNames ns) := by
  unfold ofTrimmed
  split <;> rfl

/-- The path of names without trivial ones at the end has these names, and is as absolute as any
path that begins with them and goes on. -/
theorem names_ofTrimmed {path m n : String} {front trail : List String}
    (h : names path = m :: (front ++ n :: trail)) :
    steps (ofTrimmed (trimmed (m :: front))) = stepsOf (m :: front) ∧
      isAbsolute (ofTrimmed (trimmed (m :: front))) = isAbsolute path ∧
      ∀ x ∈ names (ofTrimmed (trimmed (m :: front))), x ∈ names path := by
  have hmem : ∀ x ∈ trimmed (m :: front), x ∈ names path := fun x hx => by
    have hx' := mem_of_mem_trimmed hx
    rw [h]
    rw [List.mem_cons] at hx' ⊢
    exact hx'.imp id (List.mem_append_left _)
  obtain ⟨n', ns', hnames⟩ : ∃ n' ns', names path = m :: n' :: ns' := by
    obtain ⟨n', ns', hns'⟩ := List.exists_cons_of_ne_nil (l := front ++ n :: trail) (by simp)
    exact ⟨n', ns', by rw [h, hns']⟩
  rw [← stepsOf_trimmed (m :: front)]
  -- the first name is never taken away, so a slash at the front stays
  obtain ⟨ms, hms⟩ : ∃ ms, trimmed (m :: front) = m :: ms := ⟨_, rfl⟩
  rw [hms] at hmem ⊢
  by_cases hroot : m :: ms = [""]
  · obtain ⟨rfl, rfl⟩ := List.cons.inj hroot
    exact ⟨rfl, isAbsolute_eq (show names "/" = "" :: "" :: [] from rfl) hnames, fun x hx =>
      hmem x (by simpa [ofTrimmed, names, split] using hx)⟩
  · have hpath : ofTrimmed (m :: ms) = ofNames (m :: ms) := by
      rw [ofTrimmed]
      exact fun h => hroot h
    have hself : names (ofNames (m :: ms)) = m :: ms :=
      names_ofNames_of_slash (by simp) fun x hx => slash_not_mem_names (hmem x hx)
    rw [hpath, steps, hself]
    refine ⟨rfl, ?_, hmem⟩
    cases ms with
    | nil =>
        -- one name alone is absolute only if it is empty, which is the root
        have hne : m ≠ "" := fun h => hroot (by rw [h])
        rw [not_isAbsolute hself, eq_comm, ← Bool.not_eq_true, isAbsolute_iff, hnames]
        rintro ⟨_, _, h⟩
        exact hne (List.cons.inj h).1
    | cons y ms => exact isAbsolute_eq hself hnames

/-- The directory around a path has the path's names but the last that says something; the directory
of a single name is where the path begins. -/
theorem parent?_names {path parent : String} (h : parent? path = some parent) :
    parent = "" ∨ ∃ m front n trail, names path = m :: (front ++ n :: trail) ∧
      trimmed (names path) = m :: (front ++ [n]) ∧ parent = ofTrimmed (trimmed (m :: front)) := by
  obtain ⟨trail, htrail, -⟩ := exists_trail (names path)
  cases hns : trimmed (names path) with
  | nil => simp only [parent?, hns, reduceCtorEq] at h
  | cons m ns =>
      rcases List.eq_nil_or_concat' ns with rfl | ⟨front, n, rfl⟩
      · left
        by_cases hm : m = ""
        · subst hm
          simp only [parent?, hns, reduceCtorEq] at h
        · simpa [parent?, hns, eq_comm] using h
      · right
        rw [hns] at htrail
        refine ⟨m, front, n, trail, by simpa using htrail, rfl, ?_⟩
        have hlast : (m :: (front ++ [n])).dropLast = m :: front := by
          rw [← List.cons_append, List.dropLast_concat]
        rw [parent?, hns] at h
        split at h
        case h_1 hnil => cases hnil
        case h_2 hone => simp at hone
        case h_3 hone => simp at hone
        case h_4 =>
          rw [hlast] at h
          exact (Option.some.inj ((some_ofTrimmed _).trans h)).symm

/-- **The directory around a path**, unless it is where the path begins, is one step less. -/
theorem parent?_cases {path parent : String} (h : parent? path = some parent) :
    parent = "" ∨ ∃ n, steps path = steps parent ++ [n] ∧ isAbsolute parent = isAbsolute path ∧
      ∀ m ∈ names parent, m ∈ names path := by
  rcases parent?_names h with rfl | ⟨m, front, n, trail, hnames, hns, rfl⟩
  · exact .inl rfl
  · right
    have hstep := isTrivial_of_trimmed (hns.trans (List.cons_append ..).symm) (by simp)
    obtain ⟨hsteps, habsolute, hmem⟩ := names_ofTrimmed hnames
    refine ⟨n, ?_, habsolute, hmem⟩
    rw [hsteps, steps, ← stepsOf_trimmed, hns, ← List.cons_append, stepsOf_append,
      stepsOf_cons hstep]
    rfl

end Path

namespace Disk

variable {d d' : Disk} {directory l m : Location} {path : String} {ns : List String}

/-! ### Places -/

/-- The place that a path which leads downwards names. -/
def place (directory : Location) (path : String) : Location :=
  origin directory path ++ Path.steps path

theorem follow_place (hns : ".." ∉ ns) (h : d.follow l ns = .ok m) :
    m = l ++ Path.stepsOf ns := by
  induction ns generalizing l with
  | nil => cases h; rw [Path.stepsOf, List.filter_nil, List.append_nil]
  | cons n ns ih =>
      rw [List.mem_cons, not_or] at hns
      obtain ⟨l', he, hf⟩ := bind_eq_ok_iff.mp h
      rw [ih hns.2 hf]
      rw [enter] at he
      split at he
      case h_1 => cases he
      case h_2 => cases he
      case h_3 =>
        by_cases hn : Path.isTrivial n = true
        · rw [if_pos hn] at he
          cases he
          rw [Path.stepsOf_cons_of_trivial hn]
        · rw [if_neg hn, if_neg (by simpa using Ne.symm hns.1)] at he
          split at he
          case isTrue =>
            cases he
            rw [Path.stepsOf_cons (by simpa using hn), List.append_assoc, List.singleton_append]
          case isFalse => cases he

theorem locate_place (hpath : Path.Descends path) (h : d.locate directory path = .ok l) :
    l = place directory path := by
  rw [locate] at h
  split at h
  case isTrue => cases h
  case isFalse => exact follow_place hpath h

/-! ### Trees -/

/-- Whatever is there stands in a directory. -/
def IsTree (d : Disk) : Prop :=
  ∀ l n, (d.get? (l ++ [n])).isSome = true → d.get? l = some .directory

theorem isTree_of_entries (h : ∀ x ∈ d.entries, d.get? x.1.dropLast = some .directory) :
    d.IsTree := by
  intro l n hthere
  rw [get?, if_neg (by simp), Option.isSome_map, List.find?_isSome] at hthere
  obtain ⟨x, hx, heq⟩ := hthere
  have hdir := h x hx
  rwa [beq_iff_eq.mp heq, List.dropLast_concat] at hdir

/-- What is above a place where something is, is a directory. -/
theorem IsTree.above (h : d.IsTree) : ∀ {k : Location}, k ≠ [] →
    (d.get? (l ++ k)).isSome = true → d.get? l = some .directory := by
  intro k
  induction k using List.reverseRecOn with
  | nil => exact fun hne => absurd rfl hne
  | append_singleton k n ih =>
      intro _ hthere
      rw [← List.append_assoc] at hthere
      have hk := h _ _ hthere
      by_cases hne : k = []
      · rwa [hne, List.append_nil] at hk
      · exact ih hne (by rw [hk]; rfl)

theorem IsTree.none_below (h : d.IsTree) (hl : d.get? l = none) (n : String) :
    d.get? (l ++ [n]) = none := by
  by_contra hne
  rw [h l n (Option.isSome_iff_ne_none.mpr hne)] at hl
  cases hl

/-! ### Ways through directories -/

/-- Where one disk has the directories on a way of another, and something at its end, the way is the
same on both. -/
theorem follow_of_directories (hns : ".." ∉ ns) (h : d.follow l ns = .ok m)
    (hdirs : ∀ k, k <+: m → d.get? k = some .directory → d'.get? k = some .directory)
    (hthere : (d'.get? m).isSome = true) : d'.follow l ns = .ok m := by
  induction ns generalizing l with
  | nil => exact h
  | cons n ns ih =>
      have hplace := follow_place hns h
      rw [List.mem_cons, not_or] at hns
      obtain ⟨l', he, hf⟩ := bind_eq_ok_iff.mp h
      refine bind_eq_ok_iff.mpr ⟨l', ?_, ih hns.2 hf⟩
      have hl' : l' <+: m := ⟨_, (follow_place hns.2 hf).symm⟩
      have hdots : (n == "..") = false := by simpa using Ne.symm hns.1
      rw [enter] at he ⊢
      split at he
      case h_1 => cases he
      case h_2 => cases he
      case h_3 hdir =>
        rw [hdirs l ⟨_, hplace.symm⟩ hdir]
        by_cases hn : Path.isTrivial n = true
        · simpa only [hn, if_true] using he
        · simp only [hn, hdots, Bool.false_eq_true, if_false] at he ⊢
          split at he
          case isFalse => cases he
          case isTrue =>
            cases he
            -- what is entered is a directory, unless it is the end of the way
            have hthere' : (d'.get? (l ++ [n])).isSome = true := by
              cases ns with
              | nil => cases hf; exact hthere
              | cons n' ns =>
                  obtain ⟨_, he', -⟩ := bind_eq_ok_iff.mp hf
                  rw [enter] at he'
                  split at he'
                  case h_1 => cases he'
                  case h_2 => cases he'
                  case h_3 hdir' => rw [hdirs _ hl' hdir']; rfl
            rw [if_pos hthere']

theorem locate_of_directories (hpath : Path.Descends path) (h : d.locate directory path = .ok l)
    (hdirs : ∀ k, k <+: l → d.get? k = some .directory → d'.get? k = some .directory)
    (hthere : (d'.get? l).isSome = true) : d'.locate directory path = .ok l := by
  rw [locate] at h ⊢
  split at h
  case isTrue => cases h
  case isFalse hne => rw [if_neg hne]; exact follow_of_directories hpath h hdirs hthere

/-- Names lead through directories to a directory. -/
theorem follow_of_all (hns : ".." ∉ ns)
    (hdirs : ∀ k, k <+: Path.stepsOf ns → d.get? (l ++ k) = some .directory) :
    d.follow l ns = .ok (l ++ Path.stepsOf ns) := by
  induction ns generalizing l with
  | nil => rw [Path.stepsOf, List.filter_nil, List.append_nil]; rfl
  | cons n ns ih =>
      rw [List.mem_cons, not_or] at hns
      have hl := hdirs [] (List.nil_prefix ..)
      rw [List.append_nil] at hl
      have hdots : (n == "..") = false := by simpa using Ne.symm hns.1
      by_cases hn : Path.isTrivial n = true
      · rw [Path.stepsOf_cons_of_trivial hn] at hdirs ⊢
        simp only [follow, enter, hl, hn, if_true]
        exact ih hns.2 hdirs
      · rw [Path.stepsOf_cons (by simpa using hn)] at hdirs ⊢
        have hthere := hdirs [n] (List.cons_prefix_cons.mpr ⟨rfl, List.nil_prefix ..⟩)
        simp only [follow, enter, hl, hn, hdots, hthere, Option.isSome_some, Bool.false_eq_true,
          if_false, if_true]
        have hnext : d.follow (l ++ [n]) ns = .ok (l ++ [n] ++ Path.stepsOf ns) := by
          refine ih hns.2 fun k hk => ?_
          have hk' := hdirs (n :: k) (List.cons_prefix_cons.mpr ⟨rfl, hk⟩)
          rwa [List.append_assoc, List.singleton_append]
        rw [List.append_assoc, List.singleton_append] at hnext
        exact hnext

/-- In a tree, a path that ends in a file name leads to its place, if something is there. -/
theorem IsTree.locate {n : String} (tree : d.IsTree) (hnames : Path.names path = ns ++ [n])
    (hn : Path.IsFileName n) (hns : ".." ∉ ns)
    (hthere : (d.get? (place directory path)).isSome = true) :
    d.locate directory path = .ok (place directory path) := by
  have hsteps : Path.steps path = Path.stepsOf ns ++ [n] := by
    rw [Path.steps, hnames, Path.stepsOf_concat hn]
  rw [place, hsteps] at hthere ⊢
  have hall : ∀ k, k <+: Path.stepsOf ns →
      d.get? (origin directory path ++ k) = some .directory := by
    rintro k ⟨k', hk⟩
    rw [← hk, List.append_assoc, ← List.append_assoc (origin directory path)] at hthere
    exact tree.above (by simp) hthere
  rw [← List.append_assoc] at hthere ⊢
  exact locate_concat hnames hn (follow_of_all hns hall) (hall _ List.prefix_rfl) hthere

/-! ### What a path leads to -/

theorem entry_eq_ok_iff {e : Entry} : d.entry directory path = .ok e ↔
    ∃ l, d.locate directory path = .ok l ∧ d.get? l = some e := by
  rw [entry, bind_eq_ok_iff]
  refine exists_congr fun l => and_congr_right fun _ => ?_
  cases d.get? l with
  | none => simp
  | some e' => simp

theorem readText_of_entry {text : String}
    (h : d.entry directory path = .ok (.file text.toUTF8)) :
    d.readText directory path = .ok text :=
  bind_eq_ok_iff.mpr ⟨_, h, by simp only [fromUTF8?_eq_some_iff.mpr rfl]⟩

theorem isFile_iff : d.isFile directory path = true ↔
    ∃ content, d.entry directory path = .ok (.file content) := by
  rw [isFile]
  split
  case h_1 content hcontent => exact ⟨fun _ => ⟨content, hcontent⟩, fun _ => rfl⟩
  case h_2 hnot =>
    refine ⟨fun h => (by cases h), ?_⟩
    rintro ⟨content, hcontent⟩
    exact (hnot content hcontent).elim

/-- What some names lead to. -/
def lookup (d : Disk) (l : Location) (ns : List String) : Except Problem Entry := do
  let l ← d.follow l ns
  match d.get? l with
  | some e => .ok e
  | none   => .error .notFound

theorem entry_eq (d : Disk) (directory : Location) (path : String) : d.entry directory path =
    if path == "" then .error .notFound else d.lookup (origin directory path) (Path.names path) := by
  rw [entry, locate]
  split <;> rfl

theorem lookup_nil (d : Disk) (l : Location) : d.lookup l [] =
    match d.get? l with
    | some e => .ok e
    | none   => .error .notFound := rfl

theorem lookup_cons (d : Disk) (l : Location) (n : String) (ns : List String) :
    d.lookup l (n :: ns) = d.enter l n >>= fun l => d.lookup l ns := by
  rw [lookup, follow]
  cases d.enter l n <;> rfl

/-- Between the two disks nothing has changed on the way to `target`, but that directories have been
made before it where nothing was. -/
def MadeBefore (target : Location) (d d' : Disk) : Prop :=
  ∀ k, k <+: target → d'.get? k = d.get? k ∨
    d.get? k = none ∧ d'.get? k = some .directory ∧ k ≠ target

theorem MadeBefore.lookup_of_none {target : Location} (h : MadeBefore target d d')
    (tree : d.IsTree) (hns : ".." ∉ ns) (htarget : l ++ Path.stepsOf ns = target)
    (hl : d.get? l = none) : d'.lookup l ns = .error .notFound := by
  induction ns generalizing l with
  | nil =>
      rw [Path.stepsOf, List.filter_nil, List.append_nil] at htarget
      rcases h l (htarget ▸ List.prefix_rfl) with heq | ⟨-, -, hne⟩
      · rw [lookup_nil, heq, hl]
      · exact absurd htarget hne
  | cons n ns ih =>
      rw [List.mem_cons, not_or] at hns
      rw [lookup_cons, enter]
      rcases h l ⟨_, htarget⟩ with heq | ⟨-, hdir, -⟩
      · rw [heq, hl]; rfl
      · rw [hdir]
        by_cases hn : Path.isTrivial n = true
        · rw [Path.stepsOf_cons_of_trivial hn] at htarget
          simp only [hn, if_true]
          exact ih hns.2 htarget hl
        · rw [Path.stepsOf_cons (by simpa using hn), ← List.singleton_append,
            ← List.append_assoc] at htarget
          have hdots : (n == "..") = false := by simpa using Ne.symm hns.1
          simp only [hn, hdots, Bool.false_eq_true, if_false]
          split
          case isTrue => exact ih hns.2 htarget (tree.none_below hl n)
          case isFalse => rfl

/-- **What a path leads to does not depend on directories made around it.** -/
theorem MadeBefore.lookup_eq {target : Location} (h : MadeBefore target d d') (tree : d.IsTree)
    (hns : ".." ∉ ns) (htarget : l ++ Path.stepsOf ns = target) :
    d'.lookup l ns = d.lookup l ns := by
  induction ns generalizing l with
  | nil =>
      rw [Path.stepsOf, List.filter_nil, List.append_nil] at htarget
      rcases h l (htarget ▸ List.prefix_rfl) with heq | ⟨-, -, hne⟩
      · rw [lookup_nil, lookup_nil, heq]
      · exact absurd htarget hne
  | cons n ns ih =>
      have hprefix : l <+: target := ⟨_, htarget⟩
      -- where nothing stood nothing is found on either disk; else the next step is the same on both
      cases hl : d.get? l with
      | none =>
          rw [h.lookup_of_none tree hns htarget hl, lookup_cons, enter, hl]
          rfl
      | some e =>
          have hl' : d'.get? l = some e := by
            rcases h l hprefix with heq | ⟨hnone, -⟩
            · rw [heq, hl]
            · rw [hl] at hnone
              cases hnone
          rw [List.mem_cons, not_or] at hns
          rw [lookup_cons, lookup_cons, enter, enter, hl, hl']
          cases e with
          | file content => rfl
          | directory =>
              by_cases hn : Path.isTrivial n = true
              · rw [Path.stepsOf_cons_of_trivial hn] at htarget
                simp only [hn, if_true]
                exact ih hns.2 htarget
              · rw [Path.stepsOf_cons (by simpa using hn), ← List.singleton_append,
                  ← List.append_assoc] at htarget
                have hdots : (n == "..") = false := by simpa using Ne.symm hns.1
                simp only [hn, hdots, Bool.false_eq_true, if_false]
                rcases h (l ++ [n]) ⟨_, htarget⟩ with heq | ⟨hnone, hdir, -⟩
                · rw [heq]
                  split
                  case isTrue => exact ih hns.2 htarget
                  case isFalse => rfl
                · -- a directory has been made here, but none of what the path names below it
                  rw [hnone, hdir]
                  exact h.lookup_of_none tree hns.2 htarget hnone

theorem MadeBefore.entry_eq (h : MadeBefore (place directory path) d d') (tree : d.IsTree)
    (hpath : Path.Descends path) : d'.entry directory path = d.entry directory path := by
  rw [Disk.entry_eq, Disk.entry_eq, h.lookup_eq tree hpath rfl]

end Disk

end SchemaEnums.Files
