import SchemaEnums.Files.Disk
import SchemaEnums.Proofs.Files.Path
import SchemaEnums.Proofs.Outcome

/-!
# Files — Disk

What each operation asks of a disk, and what a path still leads to after changes elsewhere.

* `Disk.Grows d d'`: what is there stays there and directories stay directories; then a path leads
  where it led (`locate_mono`).
* `create_eq_ok` and `write_eq_ok` say which change a path asks for: a directory is made where
  nothing was, a file is written where no directory was, and the path leads there afterwards.
* `write_place` and `rename_place` say where that is: under the last name of the path, in the
  directory that the names before it lead to.
-/

namespace SchemaEnums.Files

namespace Disk

/-! ### Places -/

theorem find?_erase (d : Disk) {l m : Location} (h : m ≠ l) :
    (d.erase l).entries.find? (·.1 == m) = d.entries.find? (·.1 == m) := by
  rw [erase, List.find?_filter]
  congr 1
  funext x
  by_cases hx : x.1 = m
  · simp [hx, h]
  · simp [hx]

theorem get?_put (d : Disk) {l : Location} (hl : l ≠ []) (e : Entry) (m : Location) :
    (d.put l e).get? m = if m = l then some e else d.get? m := by
  by_cases hm : m = l
  · subst hm
    simp [get?, put, hl]
  · rw [if_neg hm, get?, get?, put, List.find?_cons_of_neg (by simpa using fun h => hm h.symm),
      find?_erase d hm]

theorem get?_erase (d : Disk) {l : Location} (hl : l ≠ []) (m : Location) :
    (d.erase l).get? m = if m = l then none else d.get? m := by
  by_cases hm : m = l
  · subst hm
    simp [get?, erase, hl]
  · rw [if_neg hm, get?, get?, find?_erase d hm]

/-! ### Disks that grow -/

/-- What is there stays there, and directories stay directories. -/
structure Grows (d d' : Disk) : Prop where
  there     : ∀ l, (d.get? l).isSome = true → (d'.get? l).isSome = true
  directory : ∀ l, d.get? l = some .directory → d'.get? l = some .directory

theorem grows_put {d : Disk} {l : Location} {e : Entry} (hl : l ≠ [])
    (h : d.get? l = some .directory → e = .directory) : Grows d (d.put l e) := by
  constructor
  · intro m hm
    rw [get?_put d hl]
    split
    case isTrue => rfl
    case isFalse => exact hm
  · intro m hm
    rw [get?_put d hl]
    split
    case isTrue heq => rw [h (heq ▸ hm)]
    case isFalse => exact hm

theorem enter_mono {d d' : Disk} (h : Grows d d') {l m : Location} {name : String}
    (he : d.enter l name = .ok m) : d'.enter l name = .ok m := by
  rw [enter] at he ⊢
  split at he
  case h_1 => cases he
  case h_2 => cases he
  case h_3 hl =>
    rw [h.directory l hl]
    by_cases h₁ : Path.isTrivial name = true
    · simpa only [h₁, if_true] using he
    · by_cases h₂ : (name == "..") = true
      · simpa only [h₁, h₂, if_true, Bool.false_eq_true, if_false] using he
      · by_cases h₃ : (d.get? (l ++ [name])).isSome = true
        · simpa only [h₁, h₂, h₃, h.there _ h₃, if_true, Bool.false_eq_true, if_false] using he
        · simp only [h₁, h₂, h₃, Bool.false_eq_true, if_false, reduceCtorEq] at he

theorem follow_mono {d d' : Disk} (h : Grows d d') : ∀ {ns : List String} {l m : Location},
    d.follow l ns = .ok m → d'.follow l ns = .ok m
  | [],      _, _, hf => hf
  | n :: ns, l, m, hf => by
      obtain ⟨l', he, hf⟩ := bind_eq_ok_iff.mp hf
      exact bind_eq_ok_iff.mpr ⟨l', enter_mono h he, follow_mono h hf⟩

theorem locate_mono {d d' : Disk} (h : Grows d d') {directory l : Location} {path : String}
    (hl : d.locate directory path = .ok l) : d'.locate directory path = .ok l := by
  rw [locate] at hl ⊢
  split at hl
  case isTrue => cases hl
  case isFalse hne => rw [if_neg hne]; exact follow_mono h hl

/-- Names lead on from where the names before them lead. -/
theorem follow_append_eq (d : Disk) (ns ms : List String) (l : Location) :
    d.follow l (ns ++ ms) = d.follow l ns >>= fun m => d.follow m ms := by
  induction ns generalizing l with
  | nil => rfl
  | cons n ns ih =>
      rw [List.cons_append, follow, follow]
      cases d.enter l n with
      | error e => rfl
      | ok l' => exact ih l'

theorem follow_append {d : Disk} {ns ms : List String} {l m : Location}
    (h : d.follow l ns = .ok m) : d.follow l (ns ++ ms) = d.follow m ms := by
  rw [follow_append_eq, h]
  rfl

/-! ### What an operation asks for -/

/-- The last of some names, if it is the name of a place, stands in the directory that the others
lead to. -/
theorem locateLast_eq_ok {d : Disk} {l m : Location} {names : List String} {name : String}
    (h : d.locateLast l names = .ok (m, name)) :
    d.follow l names.dropLast = .ok m ∧ d.get? m = some .directory ∧ name = names.getLastD "" := by
  obtain ⟨m', hm', h⟩ := bind_eq_ok_iff.mp h
  split at h
  case h_1 hdir => cases h; exact ⟨hm', hdir, rfl⟩
  case h_2 => cases h
  case h_3 => cases h

/-- Once something is at the place of a name, the names lead there. -/
theorem follow_last {d d' : Disk} (h : Grows d d') {l m : Location} {names : List String}
    {name : String} (hlast : d.locateLast l names = .ok (m, name))
    (hname : (Path.isTrivial name || name == "..") = false)
    (hthere : (d'.get? (m ++ [name])).isSome = true) : d'.follow l names = .ok (m ++ [name]) := by
  obtain ⟨hfollow, hdir, hn⟩ := locateLast_eq_ok hlast
  rw [Bool.or_eq_false_iff] at hname
  have hne : names ≠ [] := by
    rintro rfl
    rw [hn] at hname
    exact absurd hname.1 (by decide)
  have hsplit : names = names.dropLast ++ [name] := by
    rw [hn, List.getLastD_eq_getLast?, List.getLast?_eq_some_getLast hne, Option.getD_some,
      List.dropLast_concat_getLast]
  rw [hsplit, follow_append (follow_mono h hfollow)]
  simp only [follow, enter, h.directory m hdir, hname.1, hname.2, hthere, Bool.false_eq_true,
    if_false, if_true]
  rfl

theorem names_empty : Path.names "" = [""] := rfl

theorem locate_of_follow {d : Disk} {directory l m : Location} {path name : String}
    (hlast : d.locateLast (origin directory path) (Path.names path) = .ok (l, name))
    (hname : (Path.isTrivial name || name == "..") = false) {d' : Disk}
    (hf : d'.follow (origin directory path) (Path.names path) = .ok m) :
    d'.locate directory path = .ok m := by
  have hne : path ≠ "" := by
    rintro rfl
    rw [(locateLast_eq_ok hlast).2.2, names_empty] at hname
    exact absurd hname (by decide)
  rw [locate, if_neg (by simpa using hne)]
  exact hf

/-- A directory is made where nothing is, and the path leads there afterwards. -/
theorem create_eq_ok {d : Disk} {directory : Location} {path : String} {c : Change}
    (h : d.create directory path = .ok c) :
    ∃ l, c = .makeDirectory l ∧ l ≠ [] ∧ d.get? l = none ∧
      (c.apply d).locate directory path = .ok l := by
  obtain ⟨⟨m, name⟩, hlast, h⟩ := bind_eq_ok_iff.mp h
  by_cases hname : (Path.isTrivial name || name == "..") = true
  · simp only [hname, if_true, reduceCtorEq] at h
  · by_cases hthere : (d.get? (m ++ [name])).isSome = true
    · simp only [hname, hthere, if_true, Bool.false_eq_true, if_false, reduceCtorEq] at h
    · simp only [hname, hthere, Bool.false_eq_true, if_false, Except.ok.injEq] at h
      subst h
      rw [Bool.not_eq_true] at hname
      rw [Bool.not_eq_true, Option.isSome_eq_false_iff, Option.isNone_iff_eq_none] at hthere
      refine ⟨m ++ [name], rfl, by simp, hthere, ?_⟩
      -- the names before the last lead where they led, and the last one now leads on
      have hgrows : Grows d ((Change.makeDirectory (m ++ [name])).apply d) :=
        grows_put (by simp) fun _ => rfl
      exact locate_of_follow hlast hname (follow_last hgrows hlast hname (by
        rw [Change.apply, get?_put d (by simp), if_pos rfl]
        rfl))

/-- A file is written where no directory is, and the path leads there as soon as it has begun. -/
theorem write_eq_ok {d : Disk} {directory : Location} {path : String} {content : ByteArray}
    {c : Change} (h : d.write directory path content = .ok c) :
    ∃ l, c = .writeFile l content ∧ l ≠ [] ∧ d.get? l ≠ some .directory ∧
      ∀ written, (d.put l (.file written)).locate directory path = .ok l := by
  obtain ⟨⟨m, name⟩, hlast, h⟩ := bind_eq_ok_iff.mp h
  by_cases hname : (Path.isTrivial name || name == "..") = true
  · simp only [hname, if_true, reduceCtorEq] at h
  · simp only [hname, Bool.false_eq_true, if_false] at h
    split at h
    case h_1 => cases h
    case h_2 hdir =>
      cases h
      rw [Bool.not_eq_true] at hname
      refine ⟨m ++ [name], rfl, by simp, hdir, fun written => ?_⟩
      have hgrows : Grows d (d.put (m ++ [name]) (.file written)) :=
        grows_put (by simp) fun h => absurd h hdir
      exact locate_of_follow hlast hname (follow_last hgrows hlast hname (by
        rw [get?_put d (by simp), if_pos rfl]
        rfl))

/-! ### What is read -/

theorem fromUTF8?_eq_some_iff {content : ByteArray} {text : String} :
    String.fromUTF8? content = some text ↔ content = text.toUTF8 := by
  rw [String.fromUTF8?]
  constructor
  · intro h
    split at h
    case isTrue => cases h; rfl
    case isFalse => cases h
  · rintro rfl
    exact dif_pos text.isValidUTF8

/-- A path reads as a text if it leads to the file that holds it. -/
theorem readText_eq_ok_iff {d : Disk} {directory : Location} {path text : String} :
    d.readText directory path = .ok text ↔
      ∃ l, d.locate directory path = .ok l ∧ d.get? l = some (.file text.toUTF8) := by
  constructor
  · intro h
    obtain ⟨e, he, h⟩ := bind_eq_ok_iff.mp h
    obtain ⟨l, hl, he⟩ := bind_eq_ok_iff.mp he
    cases hget : d.get? l with
    | none => simp only [hget, reduceCtorEq] at he
    | some e' =>
        simp only [hget, Except.ok.injEq] at he
        subst he
        cases e' with
        | directory => cases h
        | file content =>
            cases htext : String.fromUTF8? content with
            | none => simp only [htext, reduceCtorEq] at h
            | some t =>
                simp only [htext, Except.ok.injEq] at h
                subst h
                exact ⟨l, hl, by rw [hget, fromUTF8?_eq_some_iff.mp htext]⟩
  · rintro ⟨l, hl, hget⟩
    refine bind_eq_ok_iff.mpr
      ⟨.file text.toUTF8, bind_eq_ok_iff.mpr ⟨l, hl, by simp only [hget]⟩, ?_⟩
    simp only [fromUTF8?_eq_some_iff.mpr rfl]

/-! ### Where a file is written -/

/-- A way to a directory stays where directories stay: it leads through directories only. -/
theorem follow_directory {d d' : Disk}
    (h : ∀ l, d.get? l = some .directory → d'.get? l = some .directory) :
    ∀ {ns : List String} {l m : Location}, d.follow l ns = .ok m → d.get? m = some .directory →
      d'.follow l ns = .ok m
  | [],      _, _, hf, _  => hf
  | n :: ns, l, m, hf, hm => by
      obtain ⟨l', he, hf⟩ := bind_eq_ok_iff.mp hf
      refine bind_eq_ok_iff.mpr ⟨l', ?_, follow_directory h hf hm⟩
      -- what is entered is the directory at the end or is left again
      have hl' : d.get? l' = some .directory := by
        cases ns with
        | nil => cases hf; exact hm
        | cons n' ns =>
            obtain ⟨_, he', -⟩ := bind_eq_ok_iff.mp hf
            rw [enter] at he'
            split at he'
            case h_1 => cases he'
            case h_2 => cases he'
            case h_3 hdir => exact hdir
      rw [enter] at he ⊢
      split at he
      case h_1 => cases he
      case h_2 => cases he
      case h_3 hl =>
        rw [h l hl]
        by_cases h₁ : Path.isTrivial n = true
        · simpa only [h₁, if_true] using he
        · by_cases h₂ : (n == "..") = true
          · simpa only [h₁, h₂, if_true, Bool.false_eq_true, if_false] using he
          · by_cases h₃ : (d.get? (l ++ [n])).isSome = true
            · simp only [h₁, h₂, h₃, if_true, Bool.false_eq_true, if_false, Except.ok.injEq] at he
              subst he
              simp only [h₁, h₂, h _ hl', Option.isSome_some, if_true, Bool.false_eq_true, if_false]
            · simp only [h₁, h₂, h₃, Bool.false_eq_true, if_false, reduceCtorEq] at he

theorem locate_directory {d d' : Disk}
    (h : ∀ l, d.get? l = some .directory → d'.get? l = some .directory) {directory l : Location}
    {path : String} (hlocate : d.locate directory path = .ok l) (hl : d.get? l = some .directory) :
    d'.locate directory path = .ok l := by
  rw [locate] at hlocate ⊢
  split at hlocate
  case isTrue => cases hlocate
  case isFalse hne => rw [if_neg hne]; exact follow_directory h hlocate hl

theorem locateLast_concat {d : Disk} {l m : Location} {ns : List String} {n name : String}
    (h : d.locateLast l (ns ++ [n]) = .ok (m, name)) :
    d.follow l ns = .ok m ∧ d.get? m = some .directory ∧ name = n := by
  obtain ⟨hfollow, hdir, hname⟩ := locateLast_eq_ok h
  rw [List.dropLast_concat] at hfollow
  exact ⟨hfollow, hdir, by simpa using hname⟩

section Concat

variable {d : Disk} {directory l m : Location} {path n : String} {ns : List String}

/-- A path leads where its last name does, from where the names before that lead. -/
theorem locate_eq_bind (hnames : Path.names path = ns ++ [n]) (hn : Path.IsFileName n) :
    d.locate directory path = d.follow (origin directory path) ns >>= (d.enter · n) := by
  rw [locate, if_neg (by simpa using hn.path_ne_empty hnames), hnames, follow_append_eq]
  refine congrArg (d.follow (origin directory path) ns >>= ·) (funext fun m => ?_)
  rw [follow]
  cases d.enter m n <;> rfl

/-- In a directory, the name of a file leads to what is there under it. -/
theorem enter_fileName (hn : Path.IsFileName n) (hdir : d.get? m = some .directory) :
    d.enter m n = if (d.get? (m ++ [n])).isSome then .ok (m ++ [n]) else .error .notFound := by
  rw [Path.IsFileName, Bool.or_eq_false_iff] at hn
  simp only [enter, hdir, hn.1, hn.2, Bool.false_eq_true, if_false]

/-- Behind a way to a directory, the name of what is in it leads there. -/
theorem locate_concat (hnames : Path.names path = ns ++ [n]) (hn : Path.IsFileName n)
    (hfollow : d.follow (origin directory path) ns = .ok m) (hdir : d.get? m = some .directory)
    (hthere : (d.get? (m ++ [n])).isSome = true) : d.locate directory path = .ok (m ++ [n]) := by
  rw [locate_eq_bind hnames hn, hfollow]
  exact (enter_fileName hn hdir).trans (if_pos hthere)

/-- The name of what is not there leads nowhere. -/
theorem locate_missing (hnames : Path.names path = ns ++ [n]) (hn : Path.IsFileName n)
    (hfollow : d.follow (origin directory path) ns = .ok m) (hdir : d.get? m = some .directory)
    (hnone : d.get? (m ++ [n]) = none) : d.locate directory path = .error .notFound := by
  rw [locate_eq_bind hnames hn, hfollow]
  exact (enter_fileName hn hdir).trans (if_neg (by simp [hnone]))

/-- What a path with a file name leads to is in the directory that the names before that lead to. -/
theorem eq_concat_of_locate (hnames : Path.names path = ns ++ [n]) (hn : Path.IsFileName n)
    (h : d.locate directory path = .ok l) :
    ∃ m, l = m ++ [n] ∧ d.follow (origin directory path) ns = .ok m ∧
      d.get? m = some .directory := by
  rw [locate_eq_bind hnames hn] at h
  obtain ⟨m, hfollow, henter⟩ := bind_eq_ok_iff.mp h
  have hdir : d.get? m = some .directory := by
    rw [enter] at henter
    split at henter
    case h_1 => cases henter
    case h_2 => cases henter
    case h_3 hdir => exact hdir
  rw [enter_fileName hn hdir] at henter
  split at henter
  case isTrue => exact ⟨m, (Except.ok.inj henter).symm, hfollow, hdir⟩
  case isFalse => cases henter

end Concat

/-- A file is written under the last name of its path. -/
theorem write_place {d : Disk} {directory : Location} {path n : String} {ns : List String}
    {content : ByteArray} {c : Change} (hnames : Path.names path = ns ++ [n])
    (h : d.write directory path content = .ok c) :
    ∃ m, c = .writeFile (m ++ [n]) content ∧ d.follow (origin directory path) ns = .ok m ∧
      d.get? m = some .directory ∧ Path.IsFileName n ∧ d.get? (m ++ [n]) ≠ some .directory := by
  obtain ⟨⟨m, name⟩, hlast, h⟩ := bind_eq_ok_iff.mp h
  rw [hnames] at hlast
  obtain ⟨hfollow, hdir, rfl⟩ := locateLast_concat hlast
  by_cases hname : (Path.isTrivial name || name == "..") = true
  · simp only [hname, if_true, reduceCtorEq] at h
  · simp only [hname, Bool.false_eq_true, if_false] at h
    split at h
    case h_1 => cases h
    case h_2 hfile =>
      cases h
      exact ⟨m, rfl, hfollow, hdir, by simpa [Path.IsFileName] using hname, hfile⟩

/-- A file is moved under the last name of the new path, which ends in no slash. -/
theorem rename_place {d : Disk} {directory : Location} {source target : String} {c : Change}
    (h : d.rename directory source target = .ok c) :
    ∃ old ns n m, d.locate directory source = .ok old ∧ Path.names target = ns ++ [n] ∧
      Path.IsFileName n ∧ c = .moveFile old (m ++ [n]) ∧
      d.follow (origin directory target) ns = .ok m ∧ d.get? m = some .directory ∧
      d.get? (m ++ [n]) ≠ some .directory := by
  obtain ⟨old, hold, h⟩ := bind_eq_ok_iff.mp h
  obtain ⟨⟨m, name⟩, hlast, h⟩ := bind_eq_ok_iff.mp h
  by_cases hname : (Path.isTrivial name || name == "..") = true
  · simp only [hname, if_true, reduceCtorEq] at h
  · simp only [hname, Bool.false_eq_true, if_false] at h
    split at h
    case isTrue => cases h
    case isFalse hlength =>
      split at h
      case h_1 => cases h
      case h_2 hfile =>
        cases h
        -- nothing was taken off the names, so the last of them is the name
        have hcore : ((Path.names target).reverse.dropWhile (· == "")).reverse =
            Path.names target := by
          have hsuffix := List.dropWhile_suffix (l := (Path.names target).reverse) (· == "")
          rw [hsuffix.eq_of_length_le (by simpa using hlength), List.reverse_reverse]
        rw [hcore] at hlast
        have hne : Path.names target ≠ [] := by
          intro hnil
          rw [hnil] at hlast
          obtain ⟨-, -, rfl⟩ := locateLast_eq_ok hlast
          exact hname rfl
        have hnames := (List.dropLast_concat_getLast hne).symm
        rw [hnames] at hlast
        obtain ⟨hfollow, hdir, rfl⟩ := locateLast_concat hlast
        exact ⟨old, _, _, m, hold, hnames, by simpa [Path.IsFileName] using hname, rfl, hfollow,
          hdir, hfile⟩

end Disk

end SchemaEnums.Files
