import SchemaEnums.Log
import SchemaEnums.Proofs.Config.Candidates
import SchemaEnums.Proofs.Config.Settings

/-!
# Config — Choice

Which candidate governs a directory: the first file that yields options, and the fallback if there
is none (`first_usable_governs`).  The files before it that fail are reported one by one, and no
other file is looked at, so nothing else on the disk matters.

What a candidate yields or fails with is said apart from the search: it must be a file, its text
must be there, and the text must be one of options (`Yields`, `Fails`).
-/

namespace SchemaEnums.Config
open Layout Files

variable {f : Formats} {d d' : Disk} {directory : Location} {c : Candidate}
  {before after : List Candidate} {o : Options}

/-! ### One candidate -/

/-- The candidate is a file, and its text is read as these options. -/
structure Yields (f : Formats) (d : Disk) (directory : Location) (c : Candidate) (o : Options) :
    Prop where
  file : d.isFile directory c.path = true
  text : ∃ text, d.readText directory c.path = .ok text ∧ f.read c.name text = .ok (some o)

/-- The candidate is a file, and cannot be used. -/
inductive Fails (f : Formats) (d : Disk) (directory : Location) (c : Candidate) :
    Problem → Prop where
  | unreadable {e : Files.Problem} (file : d.isFile directory c.path = true)
      (h : d.readText directory c.path = .error e) : Fails f d directory c (.unreadable c.path e)
  | unusable {text : String} {e : Problem} (file : d.isFile directory c.path = true)
      (hread : d.readText directory c.path = .ok text) (h : f.read c.name text = .error e) :
      Fails f d directory c e

theorem load_of_not_file (h : d.isFile directory c.path = false) :
    load f d directory c = .ok none := by
  rw [load, h]
  rfl

theorem load_of_unreadable {e : Files.Problem} (hfile : d.isFile directory c.path = true)
    (h : d.readText directory c.path = .error e) :
    load f d directory c = .error (.unreadable c.path e) := by
  rw [load, if_pos hfile, h]

theorem load_of_text {text : String} (hfile : d.isFile directory c.path = true)
    (h : d.readText directory c.path = .ok text) :
    load f d directory c = f.read c.name text := by
  rw [load, if_pos hfile, h]

theorem yields_iff : Yields f d directory c o ↔ load f d directory c = .ok (some o) := by
  constructor
  · rintro ⟨hfile, text, htext, hread⟩
    rw [load_of_text hfile htext, hread]
  · intro h
    cases hfile : d.isFile directory c.path with
    | false => rw [load_of_not_file hfile] at h; cases h
    | true =>
        cases htext : d.readText directory c.path with
        | error e => rw [load_of_unreadable hfile htext] at h; cases h
        | ok text =>
            rw [load_of_text hfile htext] at h
            exact ⟨hfile, text, htext, h⟩

theorem fails_iff {e : Problem} : Fails f d directory c e ↔ load f d directory c = .error e := by
  constructor
  · rintro (⟨hfile, htext⟩ | ⟨hfile, htext, hread⟩)
    · rw [load_of_unreadable hfile htext]
    · rw [load_of_text hfile htext, hread]
  · intro h
    cases hfile : d.isFile directory c.path with
    | false => rw [load_of_not_file hfile] at h; cases h
    | true =>
        cases htext : d.readText directory c.path with
        | error e' =>
            rw [load_of_unreadable hfile htext] at h
            cases h
            exact .unreadable hfile htext
        | ok text =>
            rw [load_of_text hfile htext] at h
            exact .unusable hfile htext h

/-! ### The search -/

/-- What is reported of candidates: the problem of each that fails, in their order. -/
inductive Reported (f : Formats) (d : Disk) (directory : Location) :
    List Candidate → List (String × Problem) → Prop where
  | nil : Reported f d directory [] []
  | fails {c : Candidate} {cs : List Candidate} {e : Problem} {ps : List (String × Problem)}
      (h : Fails f d directory c e) (hs : Reported f d directory cs ps) :
      Reported f d directory (c :: cs) ((c.path, e) :: ps)
  | silent {c : Candidate} {cs : List Candidate} {ps : List (String × Problem)}
      (h : ∀ e, ¬ Fails f d directory c e) (hs : Reported f d directory cs ps) :
      Reported f d directory (c :: cs) ps

/-- **Candidates that yield nothing are passed over**, with a report of those that fail. -/
theorem choose_append (cs : List Candidate) (h : ∀ b ∈ before, ∀ o, ¬ Yields f d directory b o) :
    ∃ ps, Reported f d directory before ps ∧ choose f d directory (before ++ cs) =
      { choose f d directory cs with ignored := ps ++ (choose f d directory cs).ignored } := by
  induction before with
  | nil => exact ⟨[], .nil, rfl⟩
  | cons b before ih =>
      rw [List.forall_mem_cons] at h
      obtain ⟨ps, hps, hchoose⟩ := ih h.2
      rw [List.cons_append, choose]
      cases hload : load f d directory b with
      | error e => exact ⟨(b.path, e) :: ps, .fails (fails_iff.mpr hload) hps, by rw [hchoose]; rfl⟩
      | ok found =>
          cases found with
          | some o => exact absurd (yields_iff.mpr hload) (h.1 o)
          | none =>
              refine ⟨ps, .silent (fun e he => ?_) hps, hchoose⟩
              rw [fails_iff.mp he] at hload
              cases hload

/-- The first candidate that yields options ends the search. -/
theorem choose_cons (h : Yields f d directory c o) :
    choose f d directory (c :: after) = ⟨o, some c.path, []⟩ := by
  rw [choose, yields_iff.mp h]

/-- Candidates behind one that yields options do not matter. -/
theorem choose_congr_until (h : Yields f d directory c o)
    (hsame : ∀ b ∈ before ++ [c], load f d' directory b = load f d directory b) :
    choose f d' directory (before ++ c :: after) = choose f d directory (before ++ c :: after) := by
  induction before with
  | nil =>
      have hload := yields_iff.mp h
      rw [← hsame c (by simp)] at hload
      rw [List.nil_append, choose_cons h, choose_cons (yields_iff.mpr hload)]
  | cons b before ih =>
      rw [List.cons_append, List.forall_mem_cons] at hsame
      rw [List.cons_append, choose, choose, hsame.1, ih hsame.2]

/-! ### What governs -/

/-- Under the path the two disks hold the same file, or none of them holds one. -/
def SameFile (d d' : Disk) (directory : Location) (path : String) : Prop :=
  ∀ content, d'.entry directory path = .ok (.file content) ↔
    d.entry directory path = .ok (.file content)

/-- The directory is governed by these options from that source.  The warnings are the problems of
the candidates `passed` over, and any disk with the same files under the paths of the candidates
`looked` at gives the same. -/
structure Governed (f : Formats) (d : Disk) (directory : Location) (start : String)
    (passed looked : List Candidate) (o : Options) (source : Option String) : Prop where
  options  : (resolve f d directory start).options = o
  source   : (resolve f d directory start).source = source
  warnings : ∃ ps, Reported f d directory passed ps ∧
    (Log.ofResolution (resolve f d directory start)).filter (·.level = .warn) =
      ps.map fun (path, p) => .configIgnored path p
  alone    : ∀ d', (∀ b ∈ looked, SameFile d d' directory b.path) →
    resolve f d' directory start = resolve f d directory start

/-- The warnings of a resolution are the problems of the files that it ignores. -/
theorem warnings_ofResolution (r : Resolution) :
    (Log.ofResolution r).filter (·.level = .warn) =
      r.ignored.map fun (path, p) => .configIgnored path p := by
  obtain ⟨last, hevents, hlast⟩ : ∃ last : Log.Event,
      Log.ofResolution r = r.ignored.map (fun (path, p) => .configIgnored path p) ++ [last] ∧
        last.level ≠ .warn := by
    refine ⟨_, rfl, ?_⟩
    split <;> exact nofun
  rw [hevents, List.filter_append, List.filter_singleton, decide_eq_false hlast, cond_false,
    List.append_nil, List.filter_eq_self]
  intro e he
  obtain ⟨p, -, rfl⟩ := List.mem_map.mp he
  rfl

theorem governed_of_first {start : String} (hcs : candidates start = before ++ c :: after)
    (hbefore : ∀ b ∈ before, ∀ o, ¬ Yields f d directory b o) (hc : Yields f d directory c o) :
    Governed f d directory start before (before ++ [c]) o (some c.path) := by
  obtain ⟨ps, hps, hchoose⟩ := choose_append (c :: after) hbefore
  rw [choose_cons hc, List.append_nil] at hchoose
  have hresolve : resolve f d directory start = ⟨o, some c.path, ps⟩ := by
    rw [resolve, hcs, hchoose]
  refine ⟨by rw [hresolve], by rw [hresolve], ⟨ps, hps, ?_⟩, fun d' hsame => ?_⟩
  · rw [warnings_ofResolution, hresolve]
  · rw [resolve, resolve, hcs]
    exact choose_congr_until hc fun b hb => load_congr (hsame b hb)

theorem governed_of_none {start : String}
    (h : ∀ c ∈ candidates start, ∀ o, ¬ Yields f d directory c o) :
    Governed f d directory start (candidates start) (candidates start) .fallback none := by
  obtain ⟨ps, hps, hchoose⟩ := choose_append [] h
  rw [List.append_nil, choose, List.append_nil] at hchoose
  have hresolve : resolve f d directory start = ⟨.fallback, none, ps⟩ := hchoose
  refine ⟨by rw [hresolve], by rw [hresolve], ⟨ps, hps, ?_⟩, fun d' hsame => ?_⟩
  · rw [warnings_ofResolution, hresolve]
  · exact choose_congr fun b hb => load_congr (hsame b hb)

/-- A package file that has nothing under its key for the layout does not fail. -/
theorem package_silent {r : Readers} {text : String} {j : Data.Json} {e : Problem}
    (hname : c.name = "package.json") (htext : d.readText directory c.path = .ok text)
    (hread : r.package text = some j) (hkey : j.get? "prettier" = none) :
    ¬ Fails r.formats d directory c e := by
  have hsilent : r.formats.read c.name text = .ok none := by
    rw [hname]
    simp only [Formats.read, Readers.formats, hread, hkey]
  rintro (⟨-, h⟩ | ⟨-, h, he⟩)
  · rw [htext] at h
    cases h
  · rw [htext] at h
    cases h
    rw [hsilent] at he
    cases he

/-- **The first usable candidate governs, and nothing else matters.**  The candidates are the files
of the directory by their names, and then those of the directory around it.  Whatever the notations'
readers make of texts, the first candidate that is a file and yields options governs, and the
fallback if there is none, with one warning for each candidate before it that fails.  Options from a
file follow its settings, and the defaults where these are silent; and a package file that has
nothing to say does not fail. -/
theorem first_usable_governs (r : Readers) (d : Disk) (directory : Location) (start : String) :
    (candidates start = fileNames.map (fun name => ⟨Path.join start name, name⟩) ++
      (match Path.parent? start with
        | some parent => candidates parent
        | none        => [])) ∧
    (∀ before c after o, candidates start = before ++ c :: after →
      (∀ b ∈ before, ∀ o', ¬ Yields r.formats d directory b o') →
      Yields r.formats d directory c o →
      Governed r.formats d directory start before (before ++ [c]) o (some c.path)) ∧
    ((∀ c ∈ candidates start, ∀ o, ¬ Yields r.formats d directory c o) →
      Governed r.formats d directory start (candidates start) (candidates start) .fallback none) ∧
    (∀ c o, Yields r.formats d directory c o →
      ∃ text, d.readText directory c.path = .ok text ∧ r.Says c.name text o) ∧
    (∀ (c : Candidate) text j, c.name = "package.json" → d.readText directory c.path = .ok text →
      r.package text = some j → j.get? "prettier" = none →
      ∀ e, ¬ Fails r.formats d directory c e) ∧
    Readers.standard.formats = .standard := by
  refine ⟨candidates_eq start, fun before c after o => governed_of_first, governed_of_none, ?_, ?_,
    rfl⟩
  · rintro c o ⟨-, text, htext, hread⟩
    exact ⟨text, htext, Readers.says_of_read hread⟩
  · exact fun c text j hname htext hread hkey e => package_silent hname htext hread hkey

/-- An application in a workspace: its package file says nothing about the layout, its other files
cannot be used, and the workspace's package file has options. -/
def appDisk : Disk where
  entries := [(["app"], .directory),
    (["app", "package.json"], .file "\x7b\"name\": \"app\"\x7d".toUTF8),
    (["app", ".prettierrc"], .file "singleQuote: [true\n".toUTF8),
    (["app", ".prettierrc.js"], .file "module.exports = 1;\n".toUTF8),
    (["package.json"], .file "\x7b\"prettier\": \x7b\"tabWidth\": 3\x7d\x7d".toUTF8)]

/-- The package file of the workspace. -/
def workspaceFile : Candidate := ⟨"/package.json", "package.json"⟩

theorem first_usable_governs_app :
    (∀ b ∈ (candidates "/app").take 13, ∀ o,
      ¬ Yields Readers.standard.formats appDisk [] b o) ∧
    Yields Readers.standard.formats appDisk [] workspaceFile
      { Options.default with tabWidth := 3 } ∧
    Governed Readers.standard.formats appDisk [] "/app" ((candidates "/app").take 13)
      ((candidates "/app").take 13 ++ [workspaceFile]) { Options.default with tabWidth := 3 }
      (some "/package.json") ∧
    (resolve .standard appDisk [] "/app").ignored =
      [("/app/.prettierrc", .malformed .yaml),
        ("/app/.prettierrc.js", .unsupported ".prettierrc.js")] := by
  have hcandidates : candidates "/app" =
      (candidates "/app").take 13 ++ workspaceFile :: (candidates "/app").drop 14 := by
    decide +kernel
  have hnone : ∀ b ∈ (candidates "/app").take 13,
      (load Readers.standard.formats appDisk [] b).toOption.join = none := by decide +kernel
  have hbefore : ∀ b ∈ (candidates "/app").take 13, ∀ o,
      ¬ Yields Readers.standard.formats appDisk [] b o := fun b hb o h => by
    have hb' := hnone b hb
    rw [yields_iff.mp h] at hb'
    cases hb'
  have hfile : Yields Readers.standard.formats appDisk [] workspaceFile
      { Options.default with tabWidth := 3 } := yields_iff.mpr (by decide +kernel)
  obtain ⟨-, hfirst, -⟩ := first_usable_governs .standard appDisk [] "/app"
  exact ⟨hbefore, hfile, hfirst _ _ _ _ hcandidates hbefore hfile, by decide +kernel⟩

end SchemaEnums.Config
