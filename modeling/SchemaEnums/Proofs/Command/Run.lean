import SchemaEnums.Command.Run
import SchemaEnums.Proofs.Output.Write

/-!
# Command — Run

What a failed run leaves on the disk.  Nothing is changed before the output is put in place, so a
run that fails earlier, or finds the output stale, leaves the disk as it was; a run that fails
while putting it in place leaves what `Output.Left` lists, whatever the system has stopped.
-/

namespace SchemaEnums.Command
open Files Output

variable {s : Setting} {d : Disk} {stops : Stops}

/-- The text that a run with these arguments would put in place, if it gets that far. -/
def textFor (s : Setting) (a : Arguments) (d : Disk) : Except Generate.Failure String :=
  (Generate.ofFile d s.directory a.schema a.strict a.categories
    (Config.resolve .standard d s.directory s.path).options).1

section Run

variable {arguments : List String} {a : Arguments} {text : String}

/-- A run without a text fails and has changed nothing. -/
theorem run_of_no_text {e : Generate.Failure} (ha : Arguments.read arguments = .ok a)
    (htext : textFor s a d = .error e) :
    (run s arguments d stops).result = .error (.generate e) ∧
      (run s arguments d stops).progress = .start d stops := by
  rw [textFor] at htext
  cases ht : Generate.ofFile d s.directory a.schema a.strict a.categories
      (Config.resolve .standard d s.directory s.path).options with
  | mk outcome events =>
      obtain rfl : outcome = .error e := by rwa [ht] at htext
      simp only [run, ha, perform, ht, and_self]

/-- Any other run delivers its text. -/
theorem run_of_text (ha : Arguments.read arguments = .ok a) (htext : textFor s a d = .ok text) :
    (run s arguments d stops).result = (deliver s a text d stops).result ∧
      (run s arguments d stops).progress = (deliver s a text d stops).progress := by
  rw [textFor] at htext
  cases ht : Generate.ofFile d s.directory a.schema a.strict a.categories
      (Config.resolve .standard d s.directory s.path).options with
  | mk outcome events =>
      obtain rfl : outcome = .ok text := by rwa [ht] at htext
      simp only [run, ha, perform, ht, and_self]

/-- Delivering a text fails only in putting it in place. -/
theorem deliver_failed {f : Failure} (h : (deliver s a text d stops).result = .error f) :
    ∃ path g, a.output = some path ∧ f = .output g ∧
      (put s.directory path text a.check d stops).result = .error g ∧
      (deliver s a text d stops).progress =
        (put s.directory path text a.check d stops).progress := by
  cases ho : a.output with
  | none => simp only [deliver, ho, reduceCtorEq] at h
  | some path =>
      cases hr : (put s.directory path text a.check d stops).result with
      | ok done => simp only [deliver, ho, hr, reduceCtorEq] at h
      | error g =>
          simp only [deliver, ho, hr, Except.error.injEq] at h
          exact ⟨path, g, rfl, h.symm, hr, by simp only [deliver, ho, hr]⟩

/-- A run that fails has failed before anything was written, or in putting its text in place. -/
theorem run_failed {f : Failure} (h : (run s arguments d stops).result = .error f) :
    (run s arguments d stops).progress = .start d stops ∧ (∀ g, f ≠ .output g) ∨
      ∃ a path text g, Arguments.read arguments = .ok a ∧ a.output = some path ∧
        textFor s a d = .ok text ∧ f = .output g ∧
        (put s.directory path text a.check d stops).result = .error g ∧
        (run s arguments d stops).progress =
          (put s.directory path text a.check d stops).progress := by
  cases ha : Arguments.read arguments with
  | error r =>
      simp only [run, ha, Except.error.injEq] at h ⊢
      exact .inl ⟨trivial, fun g hg => by rw [← h] at hg; cases hg⟩
  | ok a =>
      cases htext : textFor s a d with
      | error e =>
          obtain ⟨hresult, hprogress⟩ := run_of_no_text ha htext
          rw [hresult] at h
          cases h
          exact .inl ⟨hprogress, fun g hg => by cases hg⟩
      | ok text =>
          obtain ⟨hresult, hprogress⟩ := run_of_text ha htext
          rw [hresult] at h
          obtain ⟨path, g, ho, rfl, hput, hdeliver⟩ := deliver_failed h
          exact .inr ⟨a, path, text, g, rfl, ho, htext, rfl, hput, hprogress.trans hdeliver⟩

end Run

/-- **What a failed run leaves on the disk.**  Unless it fails while it puts its output in place,
all is as before.  Otherwise nothing is gone, but that directories around the output's path may have
been made where nothing was, and that the temporary file, where no directory was, holds the text if
it could not be renamed, and a beginning of the text if it could not be written to its end. -/
theorem failed_run_leaves (s : Setting) (arguments : List String) (d : Disk) (stops : Stops)
    (f : Failure) (h : (run s arguments d stops).result = .error f) :
    ((∀ g, f = .output g → ∃ path, g = .stale path) →
        (run s arguments d stops).progress.disk = d) ∧
      ∀ l, (run s arguments d stops).progress.disk.get? l = d.get? l ∨
        ∃ a path, Arguments.read arguments = .ok a ∧ a.output = some path ∧ a.check = false ∧
          ((d.get? l = none ∧ (run s arguments d stops).progress.disk.get? l = some .directory ∧
              ∃ q, Around q path ∧
                (run s arguments d stops).progress.disk.locate s.directory q = .ok l) ∨
            ∃ text content, textFor s a d = .ok text ∧
              ((∃ e, f = .output (.rename (Path.temporary path) path e) ∧
                  content = text.toUTF8) ∨
                ∃ e n, f = .output (.write (Path.temporary path) e) ∧
                  content = text.toUTF8.extract 0 n) ∧
              d.get? l ≠ some .directory ∧
              (run s arguments d stops).progress.disk.locate s.directory (Path.temporary path) =
                .ok l ∧
              (run s arguments d stops).progress.disk.get? l = some (.file content)) := by
  rcases run_failed h with ⟨hprogress, -⟩ | ⟨a, path, text, g, ha, ho, htext, rfl, hput, hprogress⟩
  · rw [hprogress]
    exact ⟨fun _ => rfl, fun l => .inl rfl⟩
  · rw [hprogress]
    rcases put_failed hput with ⟨-, hdisk⟩ | ⟨hcheck, hreplace⟩
    · rw [hdisk]
      exact ⟨fun _ => rfl, fun l => .inl rfl⟩
    · refine ⟨fun hstale => ?_, fun l => ?_⟩
      · obtain ⟨stale, rfl⟩ := hstale g rfl
        exact absurd hreplace replace_not_stale
      · cases replace_failed hreplace l with
        | same heq => exact .inl heq
        | @directory q hbefore hdir hq hplace =>
            exact .inr ⟨a, path, ha, ho, hcheck, .inl ⟨hbefore, hdir, q, hq, hplace⟩⟩
        | @temporary content hbefore hget hleft hplace =>
            refine .inr ⟨a, path, ha, ho, hcheck,
              .inr ⟨text, content, htext, ?_, hbefore, hplace, hget⟩⟩
            cases hleft with
            | whole e => exact .inl ⟨e, rfl, rfl⟩
            | beginning e n => exact .inr ⟨e, n, rfl, rfl⟩

/-- A disk with a directory and no file. -/
def bareDisk : Disk := ⟨[(["out"], .directory)]⟩

/-- A device that fails after some bytes of a file. -/
def failsAfter (n : Nat) : Stops := fun _ c =>
  match c with
  | .writeFile .. => some ⟨.system "Input/output error" 5, some n⟩
  | _             => none

/-- Without a schema nothing is changed; an output that is a directory leaves its temporary file,
and a device that fails leaves a beginning of one. -/
theorem failed_run_leaves_bare :
    (run ⟨[], false⟩ ["m", "--strict", "-o", "new/x.ts"] bareDisk).progress.disk = bareDisk ∧
      (∀ l, (run ⟨[], false⟩ ["m", "-o", "out"] bareDisk).progress.disk.get? l = bareDisk.get? l ∨
        bareDisk.get? l = none ∨
        (run ⟨[], false⟩ ["m", "-o", "out"] bareDisk).progress.disk.locate [] "out.tmp" = .ok l) ∧
      ∃ text n,
        textFor ⟨[], false⟩ ⟨"m", some "x.ts", false, false, false, []⟩ bareDisk = .ok text ∧
        (run ⟨[], false⟩ ["m", "-o", "x.ts"] bareDisk (failsAfter 3)).progress.disk.get?
          ["x.ts.tmp"] = some (.file (text.toUTF8.extract 0 n)) := by
  refine ⟨?_, fun l => ?_, ?_⟩
  · exact (failed_run_leaves ⟨[], false⟩ ["m", "--strict", "-o", "new/x.ts"] bareDisk .none
      (.generate (.schema "m" (.unreadable "m" .notFound))) rfl).1 (by rintro g ⟨⟩)
  · rcases (failed_run_leaves ⟨[], false⟩ ["m", "-o", "out"] bareDisk .none
      (.output (.rename "out.tmp" "out" .isDirectory)) rfl).2 l with
      heq | ⟨a, path, -, -, -, ⟨hnone, -⟩ | ⟨text, content, -, hf, -, hplace, -⟩⟩
    · exact .inl heq
    · exact .inr (.inl hnone)
    · rcases hf with ⟨e, hf, -⟩ | ⟨e, n, hf, -⟩
      · simp only [Failure.output.injEq, Output.Failure.rename.injEq] at hf
        rw [hf.1]
        exact .inr (.inr hplace)
      · simp only [Failure.output.injEq, reduceCtorEq] at hf
  · obtain ⟨content, hfile⟩ : ∃ content,
        (run ⟨[], false⟩ ["m", "-o", "x.ts"] bareDisk (failsAfter 3)).progress.disk.get?
          ["x.ts.tmp"] = some (.file content) := ⟨_, rfl⟩
    have hread : Arguments.read ["m", "-o", "x.ts"] =
        .ok ⟨"m", some "x.ts", false, false, false, []⟩ := rfl
    rcases (failed_run_leaves ⟨[], false⟩ ["m", "-o", "x.ts"] bareDisk (failsAfter 3)
      (.output (.write "x.ts.tmp" (.system "Input/output error" 5)))
      rfl).2 ["x.ts.tmp"] with
      heq | ⟨a, path, ha, -, -, ⟨-, hdir, -⟩ | ⟨text, content, htext, hf, -, -, hget⟩⟩
    · rw [heq] at hfile
      cases hfile
    · rw [hdir] at hfile
      cases hfile
    · cases hread.symm.trans ha
      rcases hf with ⟨e, hf, -⟩ | ⟨e, n, -, rfl⟩
      · simp only [Failure.output.injEq, reduceCtorEq] at hf
      · exact ⟨text, n, htext, hget⟩

/-- A run that fails because its output is a directory leaves a file beside it. -/
theorem failed_run_leaves_temporary :
    ¬ ∀ (s : Setting) (arguments : List String) (d : Disk) (f : Failure),
      (run s arguments d).result = .error f →
        ∀ l, (run s arguments d).progress.disk.get? l = d.get? l := by
  intro h
  have hl := h ⟨[], false⟩ ["m", "-o", "out"] bareDisk
    (.output (.rename "out.tmp" "out" .isDirectory)) rfl ["out.tmp"]
  have hthere : ((run ⟨[], false⟩ ["m", "-o", "out"] bareDisk).progress.disk.get?
      ["out.tmp"]).isSome = true := by decide +kernel
  rw [hl] at hthere
  exact absurd hthere (by decide)

end SchemaEnums.Command
