import SchemaEnums.Proofs.Command.Arguments
import SchemaEnums.Proofs.Command.Footprint
import SchemaEnums.Proofs.Config.Candidates
import SchemaEnums.Proofs.Layout.ReadBack
import SchemaEnums.Proofs.Output.Moments

/-!
# Command — Again

A run that has succeeded is done: made again, or made to check, it succeeds and changes nothing
(`run_again`).

The second run reads the disk that the first has left.  That has new directories and a new output,
and lacks the temporary file; every other file is where it was, under each path that leads downwards
(`Footprint.file_iff`).  So the configuration is the same, none of its candidates being the output
or the temporary file.  The schema is the same too: it can have become the output only if there was
none before, and a generated text is no schema (`parse_generated`).
-/

namespace SchemaEnums.Output
open Files

variable {directory : Location} {d d' : Disk} {path text : String}

/-! ### The two files -/

/-- The names of the output and of the temporary file, and their places. -/
theorem replace_beside {p p' : Progress} (hpath : Path.Descends path)
    (h : replace directory path text p = (p', none)) :
    ∃ ns n m, ".." ∉ ns ∧ Path.names path = ns ++ [n] ∧ Path.IsFileName n ∧
      Path.names (Path.temporary path) = ns ++ [n ++ ".tmp"] ∧ Path.IsFileName (n ++ ".tmp") ∧
      Disk.place directory path = m ++ [n] ∧
      Disk.place directory (Path.temporary path) = m ++ [n ++ ".tmp"] := by
  obtain ⟨p₁, c, c', -, hw, hr, -⟩ := replace_steps h
  obtain ⟨ns, n, hnames, hn, -, htemporary, hn'⟩ := names_of_steps hw hr
  refine ⟨ns, n, Disk.origin directory path ++ Path.stepsOf ns,
    fun h => hpath (by rw [hnames]; exact List.mem_append_left _ h), hnames, hn, htemporary, hn',
    ?_, ?_⟩
  · rw [Disk.place, Path.steps, hnames, Path.stepsOf_concat hn, List.append_assoc]
  · rw [Disk.place, origin_temporary hnames hn htemporary, Path.steps, htemporary,
      Path.stepsOf_concat hn', List.append_assoc]

variable {m : Location} {n q : String}

/-- What is neither of the two files and was there is there as it was. -/
theorem Footprint.kept (hf : Footprint directory path text m n d d') {l : Location} {e : Entry}
    (hl : d.get? l = some e) (hout : l ≠ m ++ [n]) (htmp : l ≠ m ++ [n ++ ".tmp"]) :
    d'.get? l = some e := by
  rcases hf.elsewhere l hout htmp with heq | ⟨hnone, -⟩
  · rw [heq, hl]
  · rw [hl] at hnone
    cases hnone

/-- **Any other file** is found where it was found before, and none is new. -/
theorem Footprint.file_iff (hf : Footprint directory path text m n d d') (tree : d.IsTree)
    (hq : Path.Descends q) (hout : Disk.place directory q ≠ m ++ [n])
    (htmp : Disk.place directory q ≠ m ++ [n ++ ".tmp"]) {content : ByteArray} :
    d'.entry directory q = .ok (.file content) ↔ d.entry directory q = .ok (.file content) := by
  simp only [Disk.entry_eq_ok_iff]
  constructor
  · rintro ⟨l, hlocate, hget⟩
    obtain rfl := Disk.locate_place hq hlocate
    have hold : d.get? (Disk.place directory q) = some (.file content) := by
      rcases hf.elsewhere _ hout htmp with heq | ⟨-, hdir, -⟩
      · rw [← heq, hget]
      · rw [hget] at hdir
        cases hdir
    refine ⟨_, Disk.locate_of_directories hq hlocate ?_ (by rw [hold]; rfl), hold⟩
    rintro k ⟨k', hk⟩ hdir
    refine tree.above (l := k) (k := k') ?_ (by rw [hk, hold]; rfl)
    rintro rfl
    rw [List.append_nil] at hk
    rw [hk, hget] at hdir
    cases hdir
  · rintro ⟨l, hlocate, hget⟩
    obtain rfl := Disk.locate_place hq hlocate
    have hnew := hf.kept hget hout htmp
    refine ⟨_, Disk.locate_of_directories hq hlocate (fun k _ hdir => ?_) (by rw [hnew]; rfl), hnew⟩
    exact hf.kept hdir (fun h => hf.files.1 (h ▸ hdir)) (fun h => hf.files.2 (h ▸ hdir))

end SchemaEnums.Output

namespace SchemaEnums.Command
open Files Output Schema

variable {s : Setting} {d d' : Disk} {stops : Stops} {a : Arguments} {path text : String}

/-! ### The schema -/

/-- A text that opens with a comment of another language is no schema. -/
theorem parse_comment (rest : List Char) : Document.parse (String.ofList ('/' :: '*' :: rest)) =
    .error ⟨.start, .strayLine⟩ := by
  rw [Document.parse, String.toList_ofList]
  rfl

theorem parse_generated (o : Layout.Options) (f : Enums.EnumFile) :
    Document.parse (Layout.render o f) = .error ⟨.start, .strayLine⟩ := by
  have hrender : Layout.render o f = String.ofList (Layout.render o f).toList :=
    String.ofList_toList.symm
  rw [hrender, Layout.render_toList, Layout.linesText_file]
  exact parse_comment _

/-- The text of a run is made from what is read from the schema file and from the options. -/
theorem textFor_eq (s : Setting) (a : Arguments) (d : Disk) : textFor s a d =
    (Generate.load d s.directory a.schema a.strict).1 >>= fun summary =>
      (Generate.ofSummary summary a.categories
        (Config.resolve .standard d s.directory s.path).options).1 := by
  rw [textFor, Generate.ofFile]
  split
  case h_1 h => rw [h]; rfl
  case h_2 h => rw [h]; rfl

/-- The text of a run is a generated one. -/
theorem exists_render (h : textFor s a d = .ok text) : ∃ o f, text = Layout.render o f := by
  rw [textFor_eq] at h
  obtain ⟨summary, -, h⟩ := bind_eq_ok_iff.mp h
  rw [Generate.ofSummary] at h
  split at h
  case h_1 file _ => exact ⟨_, file, (Except.ok.inj h).symm⟩
  case h_2 => cases h

theorem readDocument_eq_ok_iff {directory : Location} {document : Document} :
    Generate.readDocument d directory path = .ok document ↔
      ∃ text : String, d.entry directory path = .ok (.file text.toUTF8) ∧
        Document.read text = .ok document := by
  simp only [Disk.entry_eq_ok_iff, ← Disk.readText_eq_ok_iff]
  rw [Generate.readDocument]
  cases d.readText directory path <;> simp

/-- What is read from a schema file depends on the schemas that are found there. -/
theorem load_again {directory : Location} {strict : Bool} {summary : Summary}
    (hread : ∀ document, Generate.readDocument d' directory path = .ok document ↔
      Generate.readDocument d directory path = .ok document)
    (h : (Generate.load d directory path strict).1 = .ok summary) :
    (Generate.load d' directory path strict).1 = .ok summary := by
  rw [Generate.load] at h ⊢
  cases hd : Generate.readDocument d directory path with
  | ok document =>
      rw [(hread document).mpr hd]
      rwa [hd] at h
  | error e =>
      rw [hd] at h
      cases hd' : Generate.readDocument d' directory path with
      | ok document =>
          rw [(hread document).mp hd'] at hd
          cases hd
      | error e' =>
          cases strict with
          | true => cases h
          | false => exact h

/-- **The schema is the one that was read before.**  Where the output or the temporary file has come
to be under its path, there was no schema, and there is none. -/
theorem schema_again {directory m : Location} {n schema : String}
    (hf : Footprint directory path text m n d d') (tree : d.IsTree)
    (hschema : Path.Descends schema) (htext : ∀ document, Document.read text ≠ .ok document)
    (hother : ∀ l, d.locate directory schema = .ok l → (d.get? l).isSome = true →
      l ≠ m ++ [n] ∧ l ≠ m ++ [n ++ ".tmp"])
    (document : Document) : Generate.readDocument d' directory schema = .ok document ↔
      Generate.readDocument d directory schema = .ok document := by
  simp only [readDocument_eq_ok_iff]
  by_cases hplace : Disk.place directory schema = m ++ [n] ∨
      Disk.place directory schema = m ++ [n ++ ".tmp"]
  · constructor
    · rintro ⟨t, ht, hread⟩
      obtain ⟨l, hlocate, hget⟩ := Disk.entry_eq_ok_iff.mp ht
      rw [Disk.locate_place hschema hlocate] at hget
      rcases hplace with hplace | hplace
      · rw [hplace, hf.output, Option.some.injEq, Entry.file.injEq] at hget
        have hsame := Disk.fromUTF8?_eq_some_iff.mpr hget
        rw [Disk.fromUTF8?_eq_some_iff.mpr rfl, Option.some.injEq] at hsame
        exact absurd hread (hsame ▸ htext document)
      · rw [hplace, hf.temporary] at hget
        cases hget
    · rintro ⟨t, ht, -⟩
      obtain ⟨l, hlocate, hget⟩ := Disk.entry_eq_ok_iff.mp ht
      have hne := hother l hlocate (by rw [hget]; rfl)
      rw [Disk.locate_place hschema hlocate] at hne
      exact (hplace.elim hne.1 hne.2).elim
  · rw [not_or] at hplace
    simp only [hf.file_iff tree hschema hplace.1 hplace.2]

/-! ### The configuration -/

/-- **The configuration is the one that was found before.** -/
theorem resolve_again {directory m : Location} {n start : String} {f : Config.Formats}
    (hf : Footprint directory path text m n d d') (tree : d.IsTree)
    (hstart : Path.Descends start)
    (hother : ∀ c ∈ Config.candidates start, Disk.place directory c.path ≠ m ++ [n]) :
    Config.resolve f d' directory start = Config.resolve f d directory start := by
  refine Config.choose_congr fun c hc => Config.load_congr fun content => ?_
  obtain ⟨hdescends, l, name, hname, hplace⟩ : _ ∧ ∃ l n, _ ∧ Disk.place directory c.path = _ :=
    Config.candidate_place hstart hc
  refine hf.file_iff tree hdescends (hother c hc) fun htmp => ?_
  rw [hplace] at htmp
  exact Config.ne_temporary hname n (List.singleton_inj.mp (List.append_inj' htmp rfl).2)

/-! ### The second run -/

/-- The run succeeds and changes nothing, whatever the system would stop. -/
def Idle (s : Setting) (arguments : List String) (d : Disk) : Prop :=
  ∀ stops, (run s arguments d stops).result = .ok () ∧
    (run s arguments d stops).progress = .start d stops

/-- A run that finds its text in place is idle. -/
theorem idle_of_current {arguments : List String} (ha : Arguments.read arguments = .ok a)
    (ho : a.output = some path) (htext : textFor s a d = .ok text)
    (hcurrent : d.readText s.directory path = .ok text) : Idle s arguments d := by
  intro stops
  obtain ⟨hresult, hprogress⟩ := run_of_text ha htext
  rw [hresult, hprogress]
  simp only [deliver, ho, put_of_current hcurrent, and_self]

/-- **The text is the same the next time**, and it is in place. -/
theorem text_again {arguments : List String} (tree : d.IsTree) (hstart : Path.Descends s.path)
    (ha : Arguments.read arguments = .ok a) (ho : a.output = some path) (hcheck : a.check = false)
    (hpath : Path.Descends path) (hschema : Path.Descends a.schema)
    (hother : ∀ l, d.locate s.directory a.schema = .ok l → d.locate s.directory path ≠ .ok l ∧
      d.locate s.directory (Path.temporary path) ≠ .ok l)
    (hconfig : ∀ c ∈ Config.candidates s.path,
      Disk.place s.directory c.path ≠ Disk.place s.directory path)
    (h : (run s arguments d stops).result = .ok ()) :
    ∃ text, textFor s a (run s arguments d stops).progress.disk = .ok text ∧
      (run s arguments d stops).progress.disk.readText s.directory path = .ok text := by
  obtain ⟨text, done, htext, hput, hprogress⟩ := run_succeeded ha ho h
  rw [hcheck] at hput hprogress
  rw [hprogress]
  refine ⟨text, ?_⟩
  rcases put_succeeded hput with ⟨hcurrent, hdisk⟩ | hreplace
  · rw [hdisk]
    exact ⟨htext, hcurrent⟩
  · obtain ⟨m, n, hf⟩ := replace_footprint hreplace
    obtain ⟨ns, n', m', hns, hnames, hn, htemporary, hn', hplace, hplace'⟩ :=
      replace_beside hpath hreplace
    obtain ⟨rfl, hlast⟩ := List.append_inj'
      (hplace.symm.trans (Disk.locate_place hpath hf.leads).symm) rfl
    obtain rfl := List.singleton_inj.mp hlast
    refine ⟨?_, Disk.readText_eq_ok_iff.mpr ⟨_, hf.leads, hf.output⟩⟩
    -- whatever is at one of the two places is found under the path of that file
    have hplaces : ∀ l, d.locate s.directory a.schema = .ok l → (d.get? l).isSome = true →
        l ≠ m' ++ [n'] ∧ l ≠ m' ++ [n' ++ ".tmp"] := by
      intro l hlocate hthere
      refine ⟨fun hl => (hother l hlocate).1 ?_, fun hl => (hother l hlocate).2 ?_⟩
      · rw [hl, ← hplace] at hthere ⊢
        exact tree.locate hnames hn hns hthere
      · rw [hl, ← hplace'] at hthere ⊢
        exact tree.locate htemporary hn' hns hthere
    obtain ⟨o, f, hrender⟩ := exists_render htext
    have hnone : ∀ document, Document.read text ≠ .ok document := fun document hread => by
      rw [hrender, Document.read, parse_generated] at hread
      cases hread
    rw [textFor_eq] at htext ⊢
    obtain ⟨summary, hload, hsummary⟩ := bind_eq_ok_iff.mp htext
    rw [resolve_again hf tree hstart fun c hc => hplace ▸ hconfig c hc]
    exact bind_eq_ok_iff.mpr ⟨summary,
      load_again (schema_again hf tree hschema hnone hplaces) hload, hsummary⟩

/-- **A run that has succeeded is done.**  On a tree, where all paths lead downwards, neither the
output nor its temporary file is the schema, and the output is no candidate for the configuration,
the same arguments again, and those with the flag `--check`, succeed and change nothing, whatever
the system would stop. -/
theorem run_again (s : Setting) (arguments : List String) (d : Disk) (stops : Stops)
    (a : Arguments) (path : String) (tree : d.IsTree) (hstart : Path.Descends s.path)
    (ha : Arguments.read arguments = .ok a) (ho : a.output = some path) (hcheck : a.check = false)
    (hpath : Path.Descends path) (hschema : Path.Descends a.schema)
    (hother : ∀ l, d.locate s.directory a.schema = .ok l → d.locate s.directory path ≠ .ok l ∧
      d.locate s.directory (Path.temporary path) ≠ .ok l)
    (hconfig : ∀ c ∈ Config.candidates s.path,
      Disk.place s.directory c.path ≠ Disk.place s.directory path)
    (h : (run s arguments d stops).result = .ok ()) :
    Idle s arguments (run s arguments d stops).progress.disk ∧
      Idle s ("--check" :: arguments) (run s arguments d stops).progress.disk ∧
      ("--" ∉ arguments →
        Idle s (arguments ++ ["--check"]) (run s arguments d stops).progress.disk) ∧
      ∀ again, Arguments.read again = .ok { a with check := true } →
        Idle s again (run s arguments d stops).progress.disk := by
  obtain ⟨text, htext, hcurrent⟩ :=
    text_again tree hstart ha ho hcheck hpath hschema hother hconfig h
  have hidle : ∀ again, Arguments.read again = .ok { a with check := true } →
      Idle s again (run s arguments d stops).progress.disk := fun again hagain =>
    idle_of_current hagain ho htext hcurrent
  have hoption : a.output.isSome = true := by rw [ho]; rfl
  exact ⟨idle_of_current ha ho htext hcurrent, hidle _ (Arguments.read_check ha hoption hcheck),
    fun hdashes => hidle _ (Arguments.read_check_last ha hoption hcheck hdashes), hidle⟩

/-- A disk with a schema that is none, in the working directory. -/
def brokenDisk : Disk :=
  ⟨[(["w"], .directory), (["w", "m"], .file "enum".toUTF8), (["w", "o"], .directory)]⟩

/-- A run that has gone on without a schema, and made a directory for its output, is done. -/
theorem run_again_broken :
    (run ⟨["w"], false⟩ ["m", "-o", "new/x.ts"] brokenDisk).result = .ok () ∧
      Idle ⟨["w"], false⟩ ["--check", "m", "-o", "new/x.ts"]
        (run ⟨["w"], false⟩ ["m", "-o", "new/x.ts"] brokenDisk).progress.disk := by
  have hrun : (run ⟨["w"], false⟩ ["m", "-o", "new/x.ts"] brokenDisk).result = .ok () := rfl
  refine ⟨hrun, (run_again ⟨["w"], false⟩ ["m", "-o", "new/x.ts"] brokenDisk .none
    ⟨"m", some "new/x.ts", false, false, false, []⟩ "new/x.ts" ?_ ?_ rfl rfl rfl ?_ ?_ ?_ ?_
    hrun).2.1⟩
  · exact Disk.isTree_of_entries (by
      simp only [brokenDisk, List.forall_mem_cons, List.not_mem_nil, false_imp_iff,
        implies_true, and_true]
      exact ⟨rfl, rfl, rfl⟩)
  · decide
  · decide
  · decide
  · intro l _
    have hx : brokenDisk.locate ["w"] "new/x.ts" = .error .notFound := rfl
    have htmp : brokenDisk.locate ["w"] (Path.temporary "new/x.ts") = .error .notFound := rfl
    constructor
    · exact hx ▸ nofun
    · exact htmp ▸ nofun
  · decide

end SchemaEnums.Command
